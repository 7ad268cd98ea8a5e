import NetDesc.Evaluator
import NetDesc.Proofs.Operators.Dispatch
import NetDesc.Proofs.Paths.Program
import NetDesc.Proofs.Store.Related

namespace NetDesc

namespace Value.Agrees

variable {v w : Value}

theorem typeName_eq (h : v.Agrees w) : v.typeName = w.typeName := by
  obtain ⟨x, l, path⟩ := v
  obtain ⟨y, l', path'⟩ := w
  cases h.payload <;> rfl

theorem mismatch_eq (h : v.Agrees w) (expected : String) :
    v.mismatch expected = w.mismatch expected := by
  rw [mismatch, mismatch, h.typeName_eq, h.location]

theorem asTruth_eq (h : v.Agrees w) : v.asTruth = w.asTruth := by
  have hmismatch := h.mismatch_eq "boolean"
  obtain ⟨x, l, path⟩ := v
  obtain ⟨y, l', path'⟩ := w
  cases h.payload with
  | same x =>
    cases x with
    | truth b => rfl
    | _ => exact congrArg Except.error hmismatch
  | function hfg => exact congrArg Except.error hmismatch

theorem asArray_eq (h : v.Agrees w) : v.asArray = w.asArray := by
  have hmismatch := h.mismatch_eq "array"
  obtain ⟨x, l, path⟩ := v
  obtain ⟨y, l', path'⟩ := w
  cases h.payload with
  | same x =>
    cases x with
    | array a => rfl
    | _ => exact congrArg Except.error hmismatch
  | function hfg => exact congrArg Except.error hmismatch

theorem asNumber_eq (h : v.Agrees w) : v.asNumber = w.asNumber := by
  have hmismatch := h.mismatch_eq "number"
  obtain ⟨x, l, path⟩ := v
  obtain ⟨y, l', path'⟩ := w
  cases h.payload with
  | same x =>
    cases x with
    | number x => rfl
    | _ => exact congrArg Except.error hmismatch
  | function hfg => exact congrArg Except.error hmismatch

theorem asIndex_eq (h : v.Agrees w) : v.asIndex = w.asIndex := by
  rw [asIndex, asIndex, h.asNumber_eq, h.location]

/-- Both values are functions, which agree, or neither is. -/
theorem asFunction (h : v.Agrees w) : (Program.ofExcept v.asFunction).Agrees Function.Agrees
    (Program.ofExcept w.asFunction) := by
  have hmismatch := h.mismatch_eq "function"
  obtain ⟨x, l, path⟩ := v
  obtain ⟨y, l', path'⟩ := w
  cases h.payload with
  | same x =>
    cases x with
    | function f => exact .done (.refl f)
    | _ => exact .raise (congrArg EvalError.code hmismatch)
  | function hfg => exact .done hfg

end Value.Agrees

/-- A named argument and what stands for it. -/
def Value.AgreesNamed (x y : String × Value) : Prop :=
  x.1 = y.1 ∧ x.2.Agrees y.2

/-- Both lists pass an argument of this name, or neither does. -/
theorem Value.AgreesNamed.any_eq {xs ys : List (String × Value)}
    (h : List.Forall₂ AgreesNamed xs ys) (name : String) :
    xs.any (·.1 == name) = ys.any (·.1 == name) :=
  any_name_eq (h.imp fun _ _ hxy => hxy.1) name

namespace Function

theorem bindPositional_agrees (scope : RecordId) {args args' : List (String × Value)}
    (h : List.Forall₂ Value.AgreesNamed args args') :
    (bindPositional scope args).Agrees Eq (bindPositional scope args') := by
  induction h with
  | nil => exact .pure rfl
  | @cons arg arg' rest rest' harg _ ih =>
    obtain ⟨name, v⟩ := arg
    obtain ⟨name', w⟩ := arg'
    obtain ⟨rfl, hv⟩ : name = name' ∧ v.Agrees w := harg
    exact .bind_eq (Program.addValue_agrees scope name hv) fun _ => ih

theorem bindDefaults_agrees (scope : RecordId) {passed passed' : List (String × Value)}
    (h : List.Forall₂ Value.AgreesNamed passed passed') (named : List (String × CellId)) :
    (bindDefaults scope passed named).Agrees Eq (bindDefaults scope passed' named) := by
  induction named with
  | nil => exact .pure rfl
  | cons default rest ih =>
    obtain ⟨name, cell⟩ := default
    refine .bind_eq (Program.readRecord_agrees scope) fun r => ?_
    rw [Value.AgreesNamed.any_eq h]
    split
    · exact ih
    · refine .bind (Program.readCell_agrees cell) fun c d hcd => ?_
      rw [hcd]
      exact .bind_eq (Program.addMember_agrees scope name _) fun _ => ih

theorem bindNamed_agrees (scope : RecordId) (location : Location)
    {args args' : List (String × Value)} (h : List.Forall₂ Value.AgreesNamed args args') :
    (bindNamed scope location args).Agrees Eq (bindNamed scope location args') := by
  induction h with
  | nil => exact .pure rfl
  | @cons arg arg' rest rest' harg _ ih =>
    obtain ⟨name, v⟩ := arg
    obtain ⟨name', w⟩ := arg'
    obtain ⟨rfl, hv⟩ : name = name' ∧ v.Agrees w := harg
    refine .bind_eq (Program.readRecord_agrees scope) fun r => ?_
    refine .ite Iff.rfl (.raise rfl) ?_
    exact .bind_eq (Program.addValue_agrees scope name hv) fun _ => ih

variable {f g : Function} (hf : f.Agrees g) {args args' : List Value}
  (hargs : List.Forall₂ Value.Agrees args args') {named named' : List (String × Value)}
  (hnamed : List.Forall₂ Value.AgreesNamed named named') (location : Location)

include hf hargs hnamed

/-- Both calls make the scope of the body at the same place, or are refused for the same reason. -/
theorem bindArguments_agrees :
    (f.bindArguments args named location).Agrees Eq (g.bindArguments args' named' location) := by
  unfold bindArguments
  rw [hf.params, hf.named, hf.scope, hf.arity_eq, hargs.length_eq]
  refine .ite Iff.rfl ?_ (.raise rfl)
  refine .bind_eq (Program.newRecord_agrees _) fun scope => ?_
  refine .bind_eq (bindPositional_agrees scope (zip_names hargs g.params)) fun _ => ?_
  refine .bind_eq (bindDefaults_agrees scope hnamed g.named) fun _ => ?_
  exact .bind_eq (bindNamed_agrees scope location hnamed) fun _ => .pure rfl

/-- What a call is named after shows in paths only. -/
theorem apply_agrees (path path' : String) :
    (f.apply args named path location).AgreesOnValue (g.apply args' named' path' location) := by
  unfold Function.apply
  rw [hf.body]
  exact .bind_eq (bindArguments_agrees hf hargs hnamed location) fun scope =>
    Program.evaluatePart_agrees g.body scope path path' _ _

end Function

/-- Without types, no type is found. -/
theorem Registry.runtimeType_eq {r : Registry} (hr : r.types = []) (name : String)
    (location : Location) :
    r.runtimeType name location = .error { cause := .unknownType name, location } := by
  simp only [runtimeType, find?, hr, List.lookup_nil]

/-- The same operator at the same place. -/
structure Site.Agrees (site site' : Site) : Prop where
  op : site.op = site'.op
  location : site.location = site'.location

namespace Operator

variable {site site' : Site} (hsite : site.Agrees site') {v v' w w' : Value}
  (hv : v.Agrees v') (hw : w.Agrees w')

theorem of?_agrees {v v' w w' : Value} (hv : v.Agrees v') (hw : w.Agrees w') :
    OperandPair.of? v w = OperandPair.of? v' w' := by
  obtain ⟨x, l, path⟩ := v
  obtain ⟨x', l', path'⟩ := v'
  obtain ⟨y, k, via⟩ := w
  obtain ⟨y', k', via'⟩ := w'
  cases hv.payload with
  | same x =>
    cases hw.payload with
    | same y => rfl
    | function hfg => cases x <;> rfl
  | function hfg => cases hw.payload <;> rfl

theorem isNumber_agrees {v v' : Value} (hv : v.Agrees v') : isNumber v = isNumber v' := by
  obtain ⟨x, l, path⟩ := v
  obtain ⟨x', l', path'⟩ := v'
  cases hv.payload <;> rfl

theorem invalidOperands_agrees (site site' : Site) (v v' w w' : Value) :
    (Program.raise (site.invalidOperands v w) : Program Value).AgreesOnValue
      (.raise (site'.invalidOperands v' w')) :=
  .raise rfl

/-- What an operator gives is the same but for the path it is computed at. -/
theorem orInvalid_agrees {result result' : Option Value}
    (h : Option.Rel Value.Agrees result result') :
    (orInvalid site v w result).AgreesOnValue (orInvalid site' v' w' result') := by
  cases h with
  | none => exact invalidOperands_agrees site site' v v' w w'
  | some h => exact .pure h

include hsite

theorem onNumbers?_agrees (x y : Float) :
    Option.Rel Value.Agrees (onNumbers? site x y) (onNumbers? site' x y) := by
  unfold onNumbers?
  rw [hsite.op]
  cases arithmetic? site'.op x y with
  | some z => exact .some ⟨.same (.number z), hsite.location⟩
  | none =>
    cases comparison? site'.op (compareNumbers? x y) with
    | some b => exact .some ⟨.same (.truth b), hsite.location⟩
    | none => exact .none

theorem onTexts?_agrees (s t : String) :
    Option.Rel Value.Agrees (onTexts? site s t) (onTexts? site' s t) := by
  unfold onTexts?
  rw [hsite.op]
  split
  · exact .some ⟨.same (.text (s ++ t)), hsite.location⟩
  · cases comparison? site'.op (some (compareTexts s t)) with
    | some b => exact .some ⟨.same (.truth b), hsite.location⟩
    | none => exact .none

theorem onTruths?_agrees (a b : Bool) :
    Option.Rel Value.Agrees (onTruths? site a b) (onTruths? site' a b) := by
  unfold onTruths?
  rw [hsite.op]
  cases logical? site'.op a b <|> comparison? site'.op (some (compare a b)) with
  | some b => exact .some ⟨.same (.truth b), hsite.location⟩
  | none => exact .none

include hv hw

theorem graphFields_agrees (className : String) :
    (graphFields site className v w).Agrees Eq (graphFields site' className v' w') := by
  have hclass : (site.textValue className).Agrees (site'.textValue className) :=
    ⟨.same (.text className), hsite.location⟩
  refine .bind_eq (Program.newRecord_agrees none) fun fields => ?_
  refine .bind_eq (Program.addValue_agrees fields "class" hclass) fun _ => ?_
  refine .bind_eq (Program.ready_agrees hv) fun first => ?_
  refine .bind_eq (Program.ready_agrees hw) fun second => ?_
  refine .bind_eq (Program.addValue_agrees fields "inputs" ?_) fun _ => .pure rfl
  exact ⟨.same _, hv.location⟩

variable {r : Registry} (hr : r.types = [])

include hr

/-- Operators on objects fill in the fields of a node and find no type to make it. -/
theorem onObjects_agrees :
    (onObjects r site v w).AgreesOnValue (onObjects r site' v' w') := by
  obtain ⟨p, p', hp, hp', hfirst, hsecond⟩ : ∃ p p', (if isNumber w' then (w, v) else (v, w)) = p ∧
      (if isNumber w' then (w', v') else (v', w')) = p' ∧ p.1.Agrees p'.1 ∧ p.2.Agrees p'.2 := by
    split
    · exact ⟨_, _, rfl, rfl, hw, hv⟩
    · exact ⟨_, _, rfl, rfl, hv, hw⟩
  rw [onObjects, onObjects, isNumber_agrees hw, hsite.op, hp, hp']
  dsimp only
  rw [isNumber_agrees hfirst]
  cases (if isNumber p'.1 then scaleClass? site'.op else graphClass? site'.op) with
  | none => exact invalidOperands_agrees site site' p.1 p'.1 p.2 p'.2
  | some className =>
    refine .bind_eq (graphFields_agrees hsite hfirst hsecond className) fun fields => ?_
    rw [Registry.construct, Registry.construct, Registry.runtimeType_eq hr,
      Registry.runtimeType_eq hr]
    exact .raise rfl

theorem applyTo_agrees : (applyTo r site v w).AgreesOnValue (applyTo r site' v' w') := by
  have hobjects := onObjects_agrees hsite hv hw hr
  obtain ⟨x, l, path⟩ := v
  obtain ⟨x', l', path'⟩ := v'
  obtain ⟨y, k, via⟩ := w
  obtain ⟨y', k', via'⟩ := w'
  cases hv.payload with
  | same x =>
    cases hw.payload with
    | same y =>
      cases x with
      | number x =>
        cases y with
        | number y => exact orInvalid_agrees (onNumbers?_agrees hsite x y)
        | _ => exact hobjects
      | text s =>
        cases y with
        | text t => exact orInvalid_agrees (onTexts?_agrees hsite s t)
        | _ => exact hobjects
      | truth a =>
        cases y with
        | truth b => exact orInvalid_agrees (onTruths?_agrees hsite a b)
        | _ => exact hobjects
      | _ => exact hobjects
    | function hfg => cases x <;> exact hobjects
  | function hfg => exact hobjects

/-- Operators compute from what their operands agree in. -/
theorem apply_agrees : (apply r site v w).AgreesOnValue (apply r site' v' w') := by
  rw [apply_eq, apply_eq]
  rw [of?_agrees hv hw, hsite.op]
  cases OperandPair.of? v' w' with
  | some pair =>
    exact .ite Iff.rfl (applyTo_agrees hsite hv hw hr) (invalidOperands_agrees site site' v v' w w')
  | none => exact invalidOperands_agrees site site' v v' w w'

end Operator

namespace Evaluator

variable (scope : RecordId) (path path' : String)

theorem addMembers_agrees (bs : List Binding) :
    (addMembers scope path bs).Agrees Eq (addMembers scope path' bs) := by
  induction bs with
  | nil => exact .pure rfl
  | cons binding rest ih =>
    refine .bind_eq (Program.readRecord_agrees scope) fun r => ?_
    refine .ite Iff.rfl (.raise rfl) ?_
    refine .bind_eq (Program.suspend_agrees binding.value scope _ _) fun cell => ?_
    exact .bind_eq (Program.addMember_agrees scope _ _) fun _ => ih

theorem suspendDefaults_agrees (found : List (String × CellId)) (bs : List Binding) :
    (suspendDefaults scope path found bs).Agrees Eq (suspendDefaults scope path' found bs) := by
  induction bs generalizing found with
  | nil => exact .pure rfl
  | cons binding rest ih =>
    exact .bind_eq (Program.suspend_agrees binding.value scope _ _) fun cell => ih _

theorem evaluateArguments_agrees {found found' : Array Value}
    (hfound : List.Forall₂ Value.Agrees found.toList found'.toList) (es : List (Expr × String)) :
    (evaluateArguments scope path found es).Agrees (List.Forall₂ Value.Agrees)
      (evaluateArguments scope path' found' es) := by
  induction es generalizing found found' with
  | nil => exact .pure hfound
  | cons e rest ih =>
    obtain ⟨arg, param⟩ := e
    refine .bind (Program.evaluatePart_agrees arg scope path path' _ _) fun v w hvw => ih ?_
    simp only [Array.toList_push]
    exact List.rel_append hfound (.cons hvw .nil)

theorem evaluateNamed_agrees {found found' : Array (String × Value)}
    (hfound : List.Forall₂ Value.AgreesNamed found.toList found'.toList) (bs : List Binding) :
    (evaluateNamed scope path found bs).Agrees (List.Forall₂ Value.AgreesNamed)
      (evaluateNamed scope path' found' bs) := by
  induction bs generalizing found found' with
  | nil => exact .pure hfound
  | cons binding rest ih =>
    refine .bind (Program.evaluatePart_agrees binding.value scope path path' _ _) fun v w hvw => ?_
    refine .ite ?_ (.raise rfl) (ih ?_)
    · rw [← Array.any_toList, ← Array.any_toList, Value.AgreesNamed.any_eq hfound]
    · simp only [Array.toList_push]
      exact List.rel_append hfound (.cons ⟨rfl, hvw⟩ .nil)

/-- The path of a call only goes on to its parts and to the body of the function. -/
theorem evaluateApply_agrees (func : Expr) (args : ArgList) (location : Location) :
    (evaluateApply func args scope path location).AgreesOnValue
      (evaluateApply func args scope path' location) := by
  refine .bind (Program.evaluatePart_agrees func scope path path' _ _) fun v w hvw => ?_
  refine .bind hvw.asFunction fun f g hfg => ?_
  rw [hfg.arity_eq, hfg.params]
  refine .ite Iff.rfl ?_ (.raise rfl)
  refine .bind (evaluateArguments_agrees scope path path' .nil _) fun values values' hvalues => ?_
  refine .bind (evaluateNamed_agrees scope path path' .nil args.named) fun named named' hnamed => ?_
  exact Function.apply_agrees hfg hvalues hnamed location path path'

theorem evaluateItems_agrees (count count' : Nat) (found : Array CellId) (es : List Expr) :
    (evaluateItems scope path count found es).Agrees Eq
      (evaluateItems scope path' count' found es) := by
  induction es generalizing count count' found with
  | nil => exact .pure rfl
  | cons e rest ih =>
    refine .bind (Program.evaluatePart_agrees e scope path path' _ _) fun v w hvw => ?_
    have hpush : Program.Agrees Eq
        (do
          let cell ← Program.newCell (.ready v)
          evaluateItems scope path (count + 1) (found.push cell) rest)
        (do
          let cell ← Program.newCell (.ready w)
          evaluateItems scope path' (count' + 1) (found.push cell) rest) :=
      .bind_eq (Program.ready_agrees hvw) fun cell => ih _ _ (found.push cell)
    obtain ⟨x, l, via⟩ := v
    obtain ⟨y, l', via'⟩ := w
    cases hvw.payload with
    | same x =>
      cases x with
      | array a => exact ih _ _ (found ++ a.cells)
      | _ => exact hpush
    | function hfg => exact hpush

theorem suspendElements_agrees {f g : Function} (hfg : f.Agrees g)
    (initLocation location : Location) (found : Array CellId) (remaining : Nat) (index : Int64) :
    (suspendElements f initLocation location path found remaining index).Agrees Eq
      (suspendElements g initLocation location path' found remaining index) := by
  induction remaining generalizing found index with
  | zero => exact .pure rfl
  | succ remaining ih =>
    have hindex : (Value.number (Number.ofIndex index) location (elementPath path index)).Agrees
        (.number (Number.ofIndex index) location (elementPath path' index)) :=
      ⟨.same _, rfl⟩
    have hcell := Cell.Agrees.suspended
      (.element hfg hindex (elementPath path index) (elementPath path' index) initLocation)
      initLocation (elementPath path index) (elementPath path' index)
    exact .bind_eq (Program.newCell_agrees hcell) fun cell => ih _ _

theorem evaluateComprehension_agrees (ev : Evaluator) (first last init : Expr)
    (location : Location) :
    (ev.evaluateComprehension first last init scope path location).AgreesOnValue
      (ev.evaluateComprehension first last init scope path' location) := by
  refine .bind (Program.evaluatePart_agrees first scope path path' _ _) fun v w hvw => ?_
  rw [hvw.asIndex_eq]
  refine .check _ fun low => ?_
  refine .bind (Program.evaluatePart_agrees last scope path path' _ _) fun v w hvw => ?_
  rw [hvw.asIndex_eq]
  refine .check _ fun high => ?_
  refine .bind (Program.evaluatePart_agrees init scope path path' _ _) fun v w hvw => ?_
  refine .bind hvw.asFunction fun f g hfg => ?_
  rw [hfg.arity_eq]
  refine .ite Iff.rfl (.raise rfl) (.ite Iff.rfl (.raise rfl) ?_)
  exact .bind_eq (suspendElements_agrees path path' hfg init.location location #[] _ low)
    fun cells => .pure ⟨.same _, rfl⟩

theorem elementAt_agrees (a : LazyArray) (index : Int64) (location : Location) :
    (elementAt a index location).AgreesOnValue (elementAt a index location) := by
  unfold elementAt
  cases a.cellAt? index with
  | some cell => exact Program.force_agrees cell
  | none => exact .raise rfl

variable {ev : Evaluator} (hev : ev.registry.types = [])

include hev

theorem evaluateUnary_agrees (op : UnaryOp) (operand : Expr) (location : Location) :
    (ev.evaluateUnary op operand scope path location).AgreesOnValue
      (ev.evaluateUnary op operand scope path' location) := by
  cases op with
  | not =>
    refine .bind (Program.evaluatePart_agrees operand scope path path' _ _) fun v w hvw => ?_
    rw [hvw.asTruth_eq]
    exact .check _ fun b => .pure ⟨.same _, rfl⟩
  | plus =>
    refine .bind (Program.evaluatePart_agrees operand scope path path' _ _) fun v w hvw => ?_
    obtain ⟨x, l, via⟩ := v
    obtain ⟨y, l', via'⟩ := w
    cases hvw.payload with
    | same x =>
      cases x with
      | number x => exact .pure hvw
      | object o => exact .pure hvw
      | _ => exact .raise rfl
    | function hfg => exact .raise rfl
  | neg =>
    refine .bind (Program.evaluatePart_agrees operand scope path path' _ _) fun v w hvw => ?_
    obtain ⟨x, l, via⟩ := v
    obtain ⟨y, l', via'⟩ := w
    cases hvw.payload with
    | same x =>
      cases x with
      | number x => exact .pure ⟨.same _, rfl⟩
      | object o =>
        have hminusOne : (Value.number (-1) location path).Agrees (.number (-1) location path') :=
          ⟨.same _, rfl⟩
        have hsite : Site.Agrees ⟨.mul, location, path⟩ ⟨.mul, location, path'⟩ := ⟨rfl, rfl⟩
        exact Operator.apply_agrees hsite hminusOne hvw hev
      | _ => exact .raise rfl
    | function hfg => exact .raise rfl

/-- An expression means the same under any path, since without runtime types nothing asks for
    one. Whatever it makes is the same but for the paths that are kept in it. -/
theorem evaluateKind_agrees (kind : ExprKind) (location : Location) :
    (ev.evaluateKind kind location scope path).AgreesOnValue
      (ev.evaluateKind kind location scope path') := by
  have hpart (e : Expr) (id id' : String) :
      (Program.evaluatePart e scope path id).AgreesOnValue
        (Program.evaluatePart e scope path' id') :=
    Program.evaluatePart_agrees e scope path path' id id'
  cases kind with
  | number x => exact .pure ⟨.same _, rfl⟩
  | text s => exact .pure ⟨.same _, rfl⟩
  | truth b => exact .pure ⟨.same _, rfl⟩
  | new typeName fields =>
    change Program.AgreesOnValue (evaluateNew ..) (evaluateNew ..)
    rw [evaluateNew, evaluateNew, Registry.runtimeType_eq hev]
    exact .raise rfl
  | conditional condition thenBranch elseBranch =>
    refine .bind (hpart condition _ _) fun v w hvw => ?_
    rw [hvw.asTruth_eq]
    exact .check _ fun b => hpart _ _ _
  | lambda params body =>
    refine .bind_eq (suspendDefaults_agrees scope path path' [] params.named) fun named => ?_
    exact .pure ⟨.function ⟨rfl, rfl, rfl, rfl⟩, rfl⟩
  | apply func args => exact evaluateApply_agrees scope path path' func args location
  | record members =>
    refine .bind_eq (Program.newRecord_agrees (some scope)) fun record => ?_
    exact .bind_eq (addMembers_agrees record path path' members) fun _ => .pure ⟨.same _, rfl⟩
  | var name => exact Program.lookup_agrees scope name location
  | member base member =>
    exact .bind (hpart base _ _) fun v w hvw => Program.memberOf_agrees hvw member.name _
  | array items =>
    exact .bind_eq (evaluateItems_agrees scope path path' 0 0 #[] items) fun cells =>
      .pure ⟨.same _, rfl⟩
  | comprehension first last init =>
    exact evaluateComprehension_agrees scope path path' ev first last init location
  | index base index =>
    refine .bind (hpart base _ _) fun v w hvw => ?_
    rw [hvw.asArray_eq]
    refine .check _ fun a => ?_
    refine .bind (hpart index _ _) fun v w hvw => ?_
    rw [hvw.asIndex_eq]
    exact .check _ fun i => elementAt_agrees a i index.location
  | unary op operand => exact evaluateUnary_agrees scope path path' hev op operand location
  | binary op left right =>
    refine .bind (hpart left _ _) fun v v' hv => ?_
    refine .bind (hpart right _ _) fun w w' hw => ?_
    have hsite : Site.Agrees ⟨op, location, path⟩ ⟨op, location, path'⟩ := ⟨rfl, rfl⟩
    exact Operator.apply_agrees hsite hv hw hev

omit scope path path' in
/-- Computations that agree do the same. -/
theorem taskProgram_agrees {task task' : Task} (h : task.Agrees task') :
    (ev.taskProgram task).AgreesOnValue (ev.taskProgram task') := by
  cases h with
  | evaluate e scope path path' => exact evaluateKind_agrees scope path path' hev e.kind e.location
  | element hf hv path path' location =>
    exact Function.apply_agrees hf (.cons hv .nil) .nil location path path'
  | constant h => exact .pure h

end Evaluator

end NetDesc
