import NetDesc.Operator
import NetDesc.Standard

namespace NetDesc

/-- An evaluator: what it looks up by name, and its limits. -/
structure Evaluator where
  registry : Registry := .standard
  /-- Expressions may be nested this deep, counted through everything that is computed on the
      way. -/
  maxDepth : Nat := 1024
  /-- The most elements that a comprehension may have. -/
  maxArrayLength : Nat := Nat.pow 2 20
  /-- The path of a whole tree. -/
  rootPath : String := "$"

namespace Function

/-- Adds the positional arguments to the scope of a call. -/
def bindPositional (scope : RecordId) : List (String × Value) → Program Unit
  | [] => return ()
  | (name, v) :: rest => do
    Program.addValue scope name v
    bindPositional scope rest

/-- Adds the defaults of those named parameters that nothing was passed for. -/
def bindDefaults (scope : RecordId) (passed : List (String × Value)) :
    List (String × CellId) → Program Unit
  | [] => return ()
  | (name, cell) :: rest => do
    let r ← Program.readRecord scope
    unless passed.any (·.1 == name) || r.contains name do
      let default ← Program.readCell cell
      Program.addMember scope name { location := default.location, cell }
    bindDefaults scope passed rest

/-- Adds the named arguments, also those that the function does not declare. -/
def bindNamed (scope : RecordId) (location : Location) : List (String × Value) → Program Unit
  | [] => return ()
  | (name, v) :: rest => do
    let r ← Program.readRecord scope
    if r.contains name then
      .raise (.invalidArgument s!"argument {name} is passed both by position and by name" location)
    else
      Program.addValue scope name v
      bindNamed scope location rest

/-- The scope in which a call evaluates the body: a record inside the one the function was defined
    in. -/
def bindArguments (f : Function) (args : List Value) (named : List (String × Value))
    (location : Location) : Program RecordId := do
  if args.length = f.arity then
    let scope ← Program.newRecord (some f.scope)
    bindPositional scope (f.params.zip args)
    bindDefaults scope named f.named
    bindNamed scope location named
    return scope
  else
    .raise { cause := .arityMismatch f.arity args.length, location }

/-- Calls a function with values. The body's path is the caller's, marked with the name of the
    function. -/
def apply (f : Function) (args : List Value) (named : List (String × Value)) (path : String)
    (location : Location) : Program Value := do
  let scope ← f.bindArguments args named location
  Program.evaluatePart f.body scope path s!"[{f.name}]"

end Function

namespace Evaluator

/-- Adds the members of a record literal, each suspended in the record itself. -/
def addMembers (scope : RecordId) (path : String) : List Binding → Program Unit
  | [] => return ()
  | binding :: rest => do
    let name := binding.name.name
    let location := binding.name.location
    let r ← Program.readRecord scope
    if r.contains name then
      .raise (.invalidArgument s!"duplicate record member {name}" location)
    else
      let cell ← Program.suspend binding.value scope (joinPath path name)
      Program.addMember scope name { location, cell }
      addMembers scope path rest

/-- Puts a default in the place of an earlier one of its name, or after all others. -/
def putDefault (name : String) (cell : CellId) : List (String × CellId) → List (String × CellId)
  | [] => [(name, cell)]
  | (known, other) :: rest =>
    if known = name then (name, cell) :: rest else (known, other) :: putDefault name cell rest

/-- Suspends the defaults of named parameters and adds them to `found`. -/
def suspendDefaults (scope : RecordId) (path : String) (found : List (String × CellId)) :
    List Binding → Program (List (String × CellId))
  | [] => return found
  | binding :: rest => do
    let name := binding.name.name
    let cell ← Program.suspend binding.value scope (joinPath path name)
    suspendDefaults scope path (putDefault name cell found) rest

/-- Evaluates the positional arguments of a call, each under the name of its parameter. -/
def evaluateArguments (scope : RecordId) (path : String) (found : Array Value) :
    List (Expr × String) → Program (List Value)
  | [] => return found.toList
  | (arg, param) :: rest => do
    let v ← Program.evaluatePart arg scope path s!"({param})"
    evaluateArguments scope path (found.push v) rest

/-- Evaluates the named arguments of a call. None may be passed twice. -/
def evaluateNamed (scope : RecordId) (path : String) (found : Array (String × Value)) :
    List Binding → Program (List (String × Value))
  | [] => return found.toList
  | binding :: rest => do
    let name := binding.name.name
    let v ← Program.evaluatePart binding.value scope path name
    if found.any (·.1 == name) then
      let message := s!"argument {name} is passed more than once"
      .raise (.invalidArgument message binding.name.location)
    else
      evaluateNamed scope path (found.push (name, v)) rest

def evaluateApply (func : Expr) (args : ArgList) (scope : RecordId) (path : String)
    (location : Location) : Program Value := do
  let v ← Program.evaluatePart func scope path "_lambda"
  let f ← v.asFunction
  let given := args.positional.length
  if given = f.arity then
    let positional ← evaluateArguments scope path #[] (args.positional.zip f.params)
    let named ← evaluateNamed scope path #[] args.named
    f.apply positional named path location
  else
    .raise {
      cause := .arityMismatch f.arity given
      location := args.location.orElse location }

/-- Evaluates the items of an array literal. The cells of items that are arrays are taken over as
    they are. -/
def evaluateItems (scope : RecordId) (path : String) (count : Nat) (found : Array CellId) :
    List Expr → Program (Array CellId)
  | [] => return found
  | item :: rest => do
    let v ← Program.evaluatePart item scope path s!"_vecelem{count}"
    match v.payload with
    | .array a => evaluateItems scope path (count + 1) (found ++ a.cells) rest
    | _ =>
      let cell ← Program.newCell (.ready v)
      evaluateItems scope path (count + 1) (found.push cell) rest

/-- The path of an element of the array at `path`. -/
def elementPath (path : String) (index : Int64) : String :=
  if path.isEmpty then "" else s!"{path}[{index}]"

/-- Suspends the elements of a comprehension from `index` on. -/
def suspendElements (initializer : Function) (initLocation location : Location) (path : String)
    (found : Array CellId) : (remaining : Nat) → (index : Int64) → Program (Array CellId)
  | 0, _ => return found
  | remaining + 1, index => do
    let elemPath := elementPath path index
    let v := Value.number (Number.ofIndex index) location elemPath
    let task := Task.element initializer v elemPath initLocation
    let cell ← Program.newCell (.suspended task initLocation elemPath)
    suspendElements initializer initLocation location path (found.push cell) remaining (index + 1)

/-- How many indices there are from `first` to `last`. -/
def countBetween (first last : Int64) : Int64 :=
  max (Index.saturatingAdd (last - first) 1) 0

def evaluateComprehension (ev : Evaluator) (first last init : Expr) (scope : RecordId)
    (path : String) (location : Location) : Program Value := do
  let low ← Program.evaluatePart first scope path "array_first"
  let low ← low.asIndex
  let high ← Program.evaluatePart last scope path "array_last"
  let high ← high.asIndex
  let v ← Program.evaluatePart init scope path "_initializer"
  let f ← v.asFunction
  let count := countBetween low high
  if f.arity ≠ 1 then
    .raise { cause := .arityMismatch f.arity 1, location := init.location }
  else if ev.maxArrayLength < count.toInt.toNat then
    let size := s!"has {count} elements, more than the limit of {ev.maxArrayLength}"
    .raise (.invalidArgument s!"array [{low}..{high}] {size}" location)
  else
    let cells ← suspendElements f init.location location path #[] count.toInt.toNat low
    return .array { first := low, cells } location path

/-- The value at an index of an array. -/
def elementAt (a : LazyArray) (index : Int64) (location : Location) : Program Value :=
  match a.cellAt? index with
  | some cell => Program.force cell
  | none => .raise { cause := .indexOutOfBounds index a.first a.last, location }

def evaluateUnary (ev : Evaluator) (op : UnaryOp) (operand : Expr) (scope : RecordId)
    (path : String) (location : Location) : Program Value := do
  match op with
  | .not =>
    let v ← Program.evaluatePart operand scope path "_not"
    let b ← v.asTruth
    return .truth (!b) location path
  | .plus =>
    let v ← Program.evaluatePart operand scope path ""
    match v.payload with
    | .number _ | .object _ => return v
    | _ => .raise (.typeMismatch "number" v.typeName location)
  | .neg =>
    let v ← Program.evaluatePart operand scope path "_negate"
    match v.payload with
    | .number x => return .number (-x) location path
    | .object _ =>
      let minusOne := Value.number (-1) location path
      Operator.apply ev.registry ⟨.mul, location, path⟩ minusOne v
    | _ => .raise (.typeMismatch "number" v.typeName location)

def evaluateNew (ev : Evaluator) (typeName : Ident) (fields : Expr) (scope : RecordId)
    (path : String) (location : Location) : Program Value := do
  let t ← ev.registry.runtimeType typeName.name (typeName.location.orElse location)
  let v ← Program.evaluate fields scope (if t.isRecordLike then "" else path)
  let fields ← v.asRecord
  Registry.instantiate t fields location path

/-- What an expression of this form means at a place and under a path. Record members, elements
    of comprehensions and defaults are suspended in cells; everything else is evaluated when it
    is reached, at a path that grows by what the part is called. -/
def evaluateKind (ev : Evaluator) (kind : ExprKind) (location : Location) (scope : RecordId)
    (path : String) : Program Value := do
  match kind with
  | .number x => return .number x location path
  | .text s => return .text s location path
  | .truth b => return .truth b location path
  | .new typeName fields => ev.evaluateNew typeName fields scope path location
  | .conditional condition thenBranch elseBranch =>
    let v ← Program.evaluatePart condition scope path "if"
    let b ← v.asTruth
    Program.evaluatePart (if b then thenBranch else elseBranch) scope path ""
  | .lambda params body =>
    let named ← suspendDefaults scope path [] params.named
    let f : Function := {
      params := params.positional.map (·.name)
      named
      body
      scope
      name := Function.nameAt path }
    return ⟨.function f, location, path⟩
  | .apply func args => evaluateApply func args scope path location
  | .record members =>
    let record ← Program.newRecord (some scope)
    addMembers record path members
    return .record record location path
  | .var name => Program.lookup scope name location
  | .member base member =>
    let v ← Program.evaluatePart base scope path ""
    Program.memberOf v member.name (member.location.orElse location)
  | .array items =>
    let cells ← evaluateItems scope path 0 #[] items
    return .array { cells } location path
  | .comprehension first last init =>
    ev.evaluateComprehension first last init scope path location
  | .index base index =>
    let v ← Program.evaluatePart base scope path "_vector"
    let a ← v.asArray
    let i ← Program.evaluatePart index scope path "_index"
    let i ← i.asIndex
    elementAt a i index.location
  | .unary op operand => ev.evaluateUnary op operand scope path location
  | .binary op left right =>
    let l ← Program.evaluatePart left scope path s!"[{op.symbol}](left)"
    let r ← Program.evaluatePart right scope path s!"[{op.symbol}](right)"
    Operator.apply ev.registry ⟨op, location, path⟩ l r

/-- What a computation does, apart from what happens around it. -/
def taskProgram (ev : Evaluator) : Task → Program Value
  | .evaluate e scope path => ev.evaluateKind e.kind e.location scope path
  | .element initializer index path location => initializer.apply [index] [] path location
  | .constant v => return v

end Evaluator

end NetDesc
