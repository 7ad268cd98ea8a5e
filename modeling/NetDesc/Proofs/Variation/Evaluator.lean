import NetDesc.Evaluator
import NetDesc.Proofs.Operators.Dispatch
import NetDesc.Proofs.Variation.Program

namespace NetDesc

variable (V : Variation)

/-- What the type makes varies with the place where it is made. -/
def RuntimeType.Varies (t : RuntimeType) : Prop :=
  ∀ (fields : RecordId) {l l' : Location}, V.location l l' → ∀ path : String,
    (t.construct fields l path).VariesValue V (t.construct fields l' path)

namespace Registry

/-- What any of the types makes varies with the place where it is made. -/
def Varies (r : Registry) : Prop :=
  ∀ p ∈ r.types, p.2.Varies V

/-- What the types make varies with the place where it is made, in whatever way that varies. -/
def Placeless (r : Registry) : Prop :=
  ∀ V : Variation, r.Varies V

variable {V}

theorem instantiate_varies {t : RuntimeType} (ht : t.Varies V) (fields : RecordId)
    {l l' : Location} (hl : V.location l l') (path : String) :
    (instantiate t fields l path).VariesValue V (instantiate t fields l' path) := by
  refine .bind (ht fields hl path) fun v w h => ?_
  obtain ⟨x, place, via⟩ := v
  obtain ⟨y, place', via'⟩ := w
  cases h.payload with
  | object o => exact .bind_eq (Program.rename_varies o path) fun _ => .pure h
  | _ => exact .pure h

/-- Both look up the same type, or find none. -/
theorem runtimeType_varies {r : Registry} (hr : r.Varies V) (name : String) {l l' : Location}
    (hl : V.location l l') {p q : RuntimeType → Program Value}
    (hpq : ∀ t : RuntimeType, t.Varies V → (p t).VariesValue V (q t)) :
    (Program.ofExcept (r.runtimeType name l) >>= p).VariesValue V
      (Program.ofExcept (r.runtimeType name l') >>= q) := by
  unfold runtimeType
  cases hfound : r.find? name with
  | none => exact .raise _ hl
  | some t =>
    obtain ⟨before, after, heq, -⟩ := List.lookup_eq_some_iff.1 hfound
    exact hpq t (hr (name, t) (by simp [heq]))

theorem construct_varies {r : Registry} (hr : r.Varies V) (name : String) (fields : RecordId)
    {l l' : Location} (hl : V.location l l') (path : String) :
    (r.construct name fields l path).VariesValue V (r.construct name fields l' path) :=
  runtimeType_varies hr name hl fun _ ht => instantiate_varies ht fields hl path

end Registry

/-- A named argument and what stands for it. -/
def Value.VariesNamed (x y : String × Value) : Prop :=
  x.1 = y.1 ∧ x.2.Varies V y.2

variable {V}

/-- Both lists pass an argument of this name, or neither does. -/
theorem Value.VariesNamed.any_eq {xs ys : List (String × Value)}
    (h : List.Forall₂ (VariesNamed V) xs ys) (name : String) :
    xs.any (·.1 == name) = ys.any (·.1 == name) :=
  any_name_eq (h.imp fun _ _ hxy => hxy.1) name

namespace Function

theorem bindPositional_varies (scope : RecordId) {args args' : List (String × Value)}
    (h : List.Forall₂ (Value.VariesNamed V) args args') :
    (bindPositional scope args).Varies V Eq (bindPositional scope args') := by
  induction h with
  | nil => exact .pure rfl
  | @cons arg arg' rest rest' harg _ ih =>
    obtain ⟨name, v⟩ := arg
    obtain ⟨name', w⟩ := arg'
    obtain ⟨rfl, hv⟩ : name = name' ∧ v.Varies V w := harg
    exact .bind_eq (Program.addValue_varies scope name hv) fun _ => ih

theorem bindDefaults_varies (scope : RecordId) {passed passed' : List (String × Value)}
    (h : List.Forall₂ (Value.VariesNamed V) passed passed') (named : List (String × CellId)) :
    (bindDefaults scope passed named).Varies V Eq (bindDefaults scope passed' named) := by
  induction named with
  | nil => exact .pure rfl
  | cons default rest ih =>
    obtain ⟨name, cell⟩ := default
    refine .bind (Program.readRecord_varies scope) fun r k hrk => ?_
    rw [Value.VariesNamed.any_eq h, hrk.contains_eq]
    split
    · exact ih
    · refine .bind (Program.readCell_varies cell) fun c d hcd => ?_
      exact .bind_eq (Program.addMember_varies scope name ⟨hcd.place, rfl⟩) fun _ => ih

theorem bindNamed_varies (scope : RecordId) {l l' : Location} (hl : V.location l l')
    {args args' : List (String × Value)} (h : List.Forall₂ (Value.VariesNamed V) args args') :
    (bindNamed scope l args).Varies V Eq (bindNamed scope l' args') := by
  induction h with
  | nil => exact .pure rfl
  | @cons arg arg' rest rest' harg _ ih =>
    obtain ⟨name, v⟩ := arg
    obtain ⟨name', w⟩ := arg'
    obtain ⟨rfl, hv⟩ : name = name' ∧ v.Varies V w := harg
    refine .bind (Program.readRecord_varies scope) fun r k hrk => ?_
    refine .ite (by rw [hrk.contains_eq]) (.raise _ hl) ?_
    exact .bind_eq (Program.addValue_varies scope name hv) fun _ => ih

variable {f g : Function} (hf : f.Varies V g) {args args' : List Value}
  (hargs : List.Forall₂ (Value.Varies V) args args') {named named' : List (String × Value)}
  (hnamed : List.Forall₂ (Value.VariesNamed V) named named') {l l' : Location}
  (hl : V.location l l')

include hf hargs hnamed hl

/-- Records are made at the same places in both runs, so the scopes of the two calls are one and
    the same. -/
theorem bindArguments_varies :
    (f.bindArguments args named l).Varies V Eq (g.bindArguments args' named' l') := by
  unfold bindArguments
  rw [hf.params, hf.named, hf.scope, hf.arity_eq, hargs.length_eq]
  refine .ite Iff.rfl ?_ (.raise _ hl)
  refine .bind_eq (Program.newRecord_varies _) fun scope => ?_
  refine .bind_eq (bindPositional_varies scope (zip_names hargs g.params)) fun _ => ?_
  refine .bind_eq (bindDefaults_varies scope hnamed g.named) fun _ => ?_
  exact .bind_eq (bindNamed_varies scope hl hnamed) fun _ => .pure rfl

/-- The bodies of functions that vary are evaluated in equal scopes, and paths are equal as well. -/
theorem apply_varies (path : String) :
    (f.apply args named path l).VariesValue V (g.apply args' named' path l') := by
  unfold Function.apply
  rw [hf.name]
  exact .bind_eq (bindArguments_varies hf hargs hnamed hl) fun scope =>
    Program.evaluatePart_varies hf.body scope path _

end Function

/-- The same operator with the same path. -/
structure Site.Varies (V : Variation) (site site' : Site) : Prop where
  op : site.op = site'.op
  location : V.location site.location site'.location
  path : site.path = site'.path

namespace Operator

variable {site site' : Site} (hsite : site.Varies V site') {v v' w w' : Value}
  (hv : v.Varies V v') (hw : w.Varies V w')

theorem of?_eq {v v' w w' : Value} (hv : v.Varies V v') (hw : w.Varies V w') :
    OperandPair.of? v w = OperandPair.of? v' w' := by
  obtain ⟨x, l, path⟩ := v
  obtain ⟨x', l', path'⟩ := v'
  obtain ⟨y, k, via⟩ := w
  obtain ⟨y', k', via'⟩ := w'
  cases hv.payload <;> cases hw.payload <;> rfl

theorem isNumber_eq {v v' : Value} (hv : v.Varies V v') : isNumber v = isNumber v' := by
  obtain ⟨x, l, path⟩ := v
  obtain ⟨x', l', path'⟩ := v'
  cases hv.payload <;> rfl

include hsite

theorem onNumbers?_varies (x y : Float) :
    Option.Rel (Value.Varies V) (onNumbers? site x y) (onNumbers? site' x y) := by
  have hnumber (z : Float) : (site.numberValue z).Varies V (site'.numberValue z) :=
    ⟨.number z, hsite.location, hsite.path⟩
  have htruth (b : Bool) : (site.truthValue b).Varies V (site'.truthValue b) :=
    ⟨.truth b, hsite.location, hsite.path⟩
  unfold onNumbers?
  rw [hsite.op]
  cases arithmetic? site'.op x y with
  | some z => exact .some (hnumber z)
  | none =>
    cases comparison? site'.op (compareNumbers? x y) with
    | some b => exact .some (htruth b)
    | none => exact .none

theorem onTexts?_varies (s t : String) :
    Option.Rel (Value.Varies V) (onTexts? site s t) (onTexts? site' s t) := by
  unfold onTexts?
  rw [hsite.op]
  split
  · exact .some ⟨.text (s ++ t), hsite.location, hsite.path⟩
  · cases comparison? site'.op (some (compareTexts s t)) with
    | some b => exact .some ⟨.truth b, hsite.location, hsite.path⟩
    | none => exact .none

theorem onTruths?_varies (a b : Bool) :
    Option.Rel (Value.Varies V) (onTruths? site a b) (onTruths? site' a b) := by
  unfold onTruths?
  rw [hsite.op]
  cases logical? site'.op a b <|> comparison? site'.op (some (compare a b)) with
  | some b => exact .some ⟨.truth b, hsite.location, hsite.path⟩
  | none => exact .none

include hv hw

theorem invalidOperands_varies :
    (Program.raise (site.invalidOperands v w) : Program Value).VariesValue V
      (.raise (site'.invalidOperands v' w')) := by
  rw [Site.invalidOperands, hsite.op, hv.typeName_eq, hw.typeName_eq]
  exact .raise _ hsite.location

theorem orInvalid_varies {result result' : Option Value}
    (hresult : Option.Rel (Value.Varies V) result result') :
    (orInvalid site v w result).VariesValue V (orInvalid site' v' w' result') := by
  cases hresult with
  | none => exact invalidOperands_varies hsite hv hw
  | some h => exact .pure h

theorem graphFields_varies (className : String) :
    (graphFields site className v w).Varies V Eq (graphFields site' className v' w') := by
  have hclass : (site.textValue className).Varies V (site'.textValue className) :=
    ⟨.text className, hsite.location, hsite.path⟩
  refine .bind_eq (Program.newRecord_varies none) fun fields => ?_
  refine .bind_eq (Program.addValue_varies fields "class" hclass) fun _ => ?_
  refine .bind_eq (Program.ready_varies hv) fun first => ?_
  refine .bind_eq (Program.ready_varies hw) fun second => ?_
  refine .bind_eq (Program.addValue_varies fields "inputs" ?_) fun _ => .pure rfl
  exact ⟨.array _, hv.location, hsite.path⟩

variable {r : Registry} (hr : r.Varies V)

include hr

/-- An operator on objects fills in the same fields at the same places, and the node that it
    makes of them varies as the registry has it. -/
theorem onObjects_varies :
    (onObjects r site v w).VariesValue V (onObjects r site' v' w') := by
  obtain ⟨p, p', hp, hp', hfirst, hsecond⟩ : ∃ p p', (if isNumber w' then (w, v) else (v, w)) = p ∧
      (if isNumber w' then (w', v') else (v', w')) = p' ∧
        p.1.Varies V p'.1 ∧ p.2.Varies V p'.2 := by
    split
    · exact ⟨_, _, rfl, rfl, hw, hv⟩
    · exact ⟨_, _, rfl, rfl, hv, hw⟩
  rw [onObjects, onObjects, isNumber_eq hw, hsite.op, hp, hp']
  dsimp only
  rw [isNumber_eq hfirst]
  cases (if isNumber p'.1 then scaleClass? site'.op else graphClass? site'.op) with
  | none => exact invalidOperands_varies hsite hfirst hsecond
  | some className =>
    refine .bind_eq (graphFields_varies hsite hfirst hsecond className) fun fields => ?_
    rw [hsite.path]
    exact Registry.construct_varies hr _ fields hsite.location site'.path

theorem applyTo_varies : (applyTo r site v w).VariesValue V (applyTo r site' v' w') := by
  have hobjects := onObjects_varies hsite hv hw hr
  have hor {result result' : Option Value} (h : Option.Rel (Value.Varies V) result result') :=
    orInvalid_varies hsite hv hw h
  obtain ⟨x, l, path⟩ := v
  obtain ⟨x', l', path'⟩ := v'
  obtain ⟨y, k, via⟩ := w
  obtain ⟨y', k', via'⟩ := w'
  cases hv.payload with
  | number x =>
    cases hw.payload with
    | number y => exact hor (onNumbers?_varies hsite x y)
    | _ => exact hobjects
  | text s =>
    cases hw.payload with
    | text t => exact hor (onTexts?_varies hsite s t)
    | _ => exact hobjects
  | truth a =>
    cases hw.payload with
    | truth b => exact hor (onTruths?_varies hsite a b)
    | _ => exact hobjects
  | _ => exact hobjects

/-- Operands that vary are of the same kinds, so both runs compute the same scalar, make the same
    node or refuse the same operands. -/
theorem apply_varies : (apply r site v w).VariesValue V (apply r site' v' w') := by
  rw [apply_eq, apply_eq]
  rw [of?_eq hv hw, hsite.op]
  cases OperandPair.of? v' w' with
  | some pair =>
    exact .ite Iff.rfl (applyTo_varies hsite hv hw hr) (invalidOperands_varies hsite hv hw)
  | none => exact invalidOperands_varies hsite hv hw

end Operator

namespace Evaluator

theorem addMembers_varies (scope : RecordId) (path : String) {bs bs' : List Binding}
    (h : List.Forall₂ (Binding.Varies V.expr V.location) bs bs') :
    (addMembers scope path bs).Varies V Eq (addMembers scope path bs') := by
  induction h with
  | nil => exact .pure rfl
  | cons hb _ ih =>
    unfold addMembers
    rw [hb.name.name]
    refine .bind (Program.readRecord_varies scope) fun r k hrk => ?_
    refine .ite (by rw [hrk.contains_eq]) (.raise _ hb.name.location) ?_
    refine .bind_eq (Program.suspend_varies hb.value scope _) fun cell => ?_
    have hplace := V.place_of_location hb.name.location
    exact .bind_eq (Program.addMember_varies scope _ ⟨hplace, rfl⟩) fun _ => ih

theorem suspendDefaults_varies (scope : RecordId) (path : String)
    (found : List (String × CellId)) {bs bs' : List Binding}
    (h : List.Forall₂ (Binding.Varies V.expr V.location) bs bs') :
    (suspendDefaults scope path found bs).Varies V Eq (suspendDefaults scope path found bs') := by
  induction h generalizing found with
  | nil => exact .pure rfl
  | cons hb _ ih =>
    unfold suspendDefaults
    rw [hb.name.name]
    exact .bind_eq (Program.suspend_varies hb.value scope _) fun cell => ih _

theorem evaluateArguments_varies (scope : RecordId) (path : String) {found found' : Array Value}
    (hfound : List.Forall₂ (Value.Varies V) found.toList found'.toList) {es es' : List Expr}
    (h : List.Forall₂ V.expr es es') (params : List String) :
    (evaluateArguments scope path found (es.zip params)).Varies V
      (List.Forall₂ (Value.Varies V)) (evaluateArguments scope path found' (es'.zip params)) := by
  induction h generalizing found found' params with
  | nil => exact .pure hfound
  | cons he _ ih =>
    cases params with
    | nil => exact .pure hfound
    | cons param params =>
      refine .bind (Program.evaluatePart_varies he scope path _) fun v w hvw => ih ?_ params
      simp only [Array.toList_push]
      exact List.rel_append hfound (.cons hvw .nil)

theorem evaluateNamed_varies (scope : RecordId) (path : String)
    {found found' : Array (String × Value)}
    (hfound : List.Forall₂ (Value.VariesNamed V) found.toList found'.toList)
    {bs bs' : List Binding} (h : List.Forall₂ (Binding.Varies V.expr V.location) bs bs') :
    (evaluateNamed scope path found bs).Varies V (List.Forall₂ (Value.VariesNamed V))
      (evaluateNamed scope path found' bs') := by
  induction h generalizing found found' with
  | nil => exact .pure hfound
  | cons hb _ ih =>
    unfold evaluateNamed
    rw [hb.name.name]
    refine .bind (Program.evaluatePart_varies hb.value scope path _) fun v w hvw => ?_
    refine .ite ?_ (.raise _ hb.name.location) (ih ?_)
    · rw [← Array.any_toList, ← Array.any_toList, Value.VariesNamed.any_eq hfound]
    · simp only [Array.toList_push]
      exact List.rel_append hfound (.cons ⟨rfl, hvw⟩ .nil)

/-- A call whose function and arguments vary. Errors in binding are reported at the location of
    the call, which varies as well. -/
theorem evaluateApply_varies {func func' : Expr} (hfunc : V.expr func func') {a a' : ArgList}
    (ha : a.Varies V.expr V.location a') (scope : RecordId) (path : String) {l l' : Location}
    (hl : V.location l l') :
    (evaluateApply func a scope path l).VariesValue V (evaluateApply func' a' scope path l') := by
  refine .bind (Program.evaluatePart_varies hfunc scope path _) fun v w hvw => ?_
  refine .check hvw.asFunction fun f g hfg => ?_
  rw [ha.positional.length_eq, hfg.arity_eq, hfg.params]
  refine .ite Iff.rfl ?_ (.raise _ (V.orElse ha.location hl))
  refine .bind (evaluateArguments_varies scope path .nil ha.positional g.params)
    fun positional positional' hpositional => ?_
  refine .bind (evaluateNamed_varies scope path .nil ha.named) fun named named' hnamed => ?_
  exact Function.apply_varies hfg hpositional hnamed hl path

theorem evaluateItems_varies (scope : RecordId) (path : String) (count : Nat)
    (found : Array CellId) {es es' : List Expr} (h : List.Forall₂ V.expr es es') :
    (evaluateItems scope path count found es).Varies V Eq
      (evaluateItems scope path count found es') := by
  induction h generalizing count found with
  | nil => exact .pure rfl
  | @cons e e' rest rest' he _ ih =>
    refine .bind (Program.evaluatePart_varies he scope path _) fun v w hvw => ?_
    have hpush : Program.Varies V Eq
        (do
          let cell ← Program.newCell (.ready v)
          evaluateItems scope path (count + 1) (found.push cell) rest)
        (do
          let cell ← Program.newCell (.ready w)
          evaluateItems scope path (count + 1) (found.push cell) rest') :=
      .bind_eq (Program.ready_varies hvw) fun cell => ih (count + 1) (found.push cell)
    obtain ⟨x, l, via⟩ := v
    obtain ⟨y, l', via'⟩ := w
    cases hvw.payload with
    | array a => exact ih (count + 1) (found ++ a.cells)
    | _ => exact hpush

theorem suspendElements_varies {f g : Function} (hf : f.Varies V g) {k k' l l' : Location}
    (hk : V.location k k') (hl : V.location l l') (path : String) (found : Array CellId)
    (remaining : Nat) (index : Int64) :
    (suspendElements f k l path found remaining index).Varies V Eq
      (suspendElements g k' l' path found remaining index) := by
  induction remaining generalizing found index with
  | zero => exact .pure rfl
  | succ remaining ih =>
    have hindex : (Value.number (Number.ofIndex index) l (elementPath path index)).Varies V
        (.number (Number.ofIndex index) l' (elementPath path index)) :=
      ⟨.number _, hl, rfl⟩
    have hcell := Cell.Varies.suspended (.element hf hindex (elementPath path index) hk)
      (fun _ => hk) (V.place_of_location hk) (elementPath path index)
    exact .bind_eq (Program.newCell_varies hcell) fun cell => ih _ _

theorem evaluateComprehension_varies (ev : Evaluator) {first first' last last' init init' : Expr}
    (hfirst : V.expr first first') (hlast : V.expr last last') (hinit : V.expr init init')
    (scope : RecordId) (path : String) {l l' : Location} (hl : V.location l l') :
    (ev.evaluateComprehension first last init scope path l).VariesValue V
      (ev.evaluateComprehension first' last' init' scope path l') := by
  refine .bind (Program.evaluatePart_varies hfirst scope path _) fun v w hvw => ?_
  refine .check_eq hvw.asIndex fun low => ?_
  refine .bind (Program.evaluatePart_varies hlast scope path _) fun v w hvw => ?_
  refine .check_eq hvw.asIndex fun high => ?_
  -- The initializer has been evaluated, so it is at related places.
  refine .bind (Program.evaluatePart_awake hinit scope path _) fun v w ⟨hawake, hvw⟩ => ?_
  have hplace := V.expr_location hinit hawake
  refine .check hvw.asFunction fun f g hfg => ?_
  rw [hfg.arity_eq]
  refine .ite Iff.rfl (.raise _ hplace) (.ite Iff.rfl (.raise _ hl) ?_)
  exact .bind_eq (suspendElements_varies hfg hplace hl path #[] _ low) fun cells =>
    .pure ⟨.array _, hl, rfl⟩

/-- Arrays are equal in both runs, since all they consist of are cells. -/
theorem elementAt_varies (a : LazyArray) (index : Int64) {l l' : Location}
    (hl : V.location l l') : (elementAt a index l).VariesValue V (elementAt a index l') := by
  unfold elementAt
  cases a.cellAt? index with
  | some cell => exact Program.force_varies cell
  | none => exact .raise _ hl

variable {ev : Evaluator} (hev : ev.registry.Varies V)

include hev

theorem evaluateUnary_varies (op : UnaryOp) {e e' : Expr} (he : V.expr e e') (scope : RecordId)
    (path : String) {l l' : Location} (hl : V.location l l') :
    (ev.evaluateUnary op e scope path l).VariesValue V
      (ev.evaluateUnary op e' scope path l') := by
  have hmismatch {v w : Value} (hvw : v.Varies V w) :
      (Program.raise (.typeMismatch "number" v.typeName l) : Program Value).VariesValue V
        (.raise (.typeMismatch "number" w.typeName l')) := by
    rw [hvw.typeName_eq]
    exact .raise _ hl
  cases op with
  | not =>
    refine .bind (Program.evaluatePart_varies he scope path _) fun v w hvw => ?_
    exact .check_eq hvw.asTruth fun b => .pure ⟨.truth _, hl, rfl⟩
  | plus =>
    refine .bind (Program.evaluatePart_varies he scope path _) fun v w hvw => ?_
    have hmismatch := hmismatch hvw
    obtain ⟨x, place, via⟩ := v
    obtain ⟨y, place', via'⟩ := w
    cases hvw.payload with
    | number x => exact .pure hvw
    | object o => exact .pure hvw
    | _ => exact hmismatch
  | neg =>
    refine .bind (Program.evaluatePart_varies he scope path _) fun v w hvw => ?_
    have hmismatch := hmismatch hvw
    obtain ⟨x, place, via⟩ := v
    obtain ⟨y, place', via'⟩ := w
    cases hvw.payload with
    | number x => exact .pure ⟨.number _, hl, rfl⟩
    | object o =>
      have hminusOne : (Value.number (-1) l path).Varies V (.number (-1) l' path) :=
        ⟨.number _, hl, rfl⟩
      have hsite : Site.Varies V ⟨.mul, l, path⟩ ⟨.mul, l', path⟩ := ⟨rfl, hl, rfl⟩
      exact Operator.apply_varies hsite hminusOne hvw hev
    | _ => exact hmismatch

theorem evaluateNew_varies {t t' : Ident} (ht : t.Varies V.location t') {e e' : Expr}
    (he : V.expr e e') (scope : RecordId) (path : String) {l l' : Location}
    (hl : V.location l l') :
    (ev.evaluateNew t e scope path l).VariesValue V (ev.evaluateNew t' e' scope path l') := by
  unfold evaluateNew
  rw [ht.name]
  refine Registry.runtimeType_varies hev t'.name (V.orElse ht.location hl) fun type htype => ?_
  refine .bind (Program.evaluate_varies he scope _) fun v w hvw => ?_
  exact .check_eq hvw.asRecord fun r => Registry.instantiate_varies htype r hl path

/-- What an expression means varies with its parts and locations, given that runtime types vary
    with the place where they are instantiated. -/
theorem evaluateKind_varies {k k' : ExprKind} (hk : k.Varies V.expr V.location k')
    {l l' : Location} (hl : V.location l l') (scope : RecordId) (path : String) :
    (ev.evaluateKind k l scope path).VariesValue V (ev.evaluateKind k' l' scope path) := by
  cases hk with
  | number x => exact .pure ⟨.number x, hl, rfl⟩
  | text s => exact .pure ⟨.text s, hl, rfl⟩
  | truth b => exact .pure ⟨.truth b, hl, rfl⟩
  | new ht he => exact evaluateNew_varies hev ht he scope path hl
  | conditional hc ht he =>
    refine .bind (Program.evaluatePart_varies hc scope path _) fun v w hvw => ?_
    refine .check_eq hvw.asTruth fun b => ?_
    cases b with
    | true => exact Program.evaluatePart_varies ht scope path _
    | false => exact Program.evaluatePart_varies he scope path _
  | lambda hp he =>
    refine .bind_eq (suspendDefaults_varies scope path [] hp.named) fun named => ?_
    exact .pure ⟨.function ⟨hp.positional, rfl, he, rfl, rfl⟩, hl, rfl⟩
  | apply hf ha => exact evaluateApply_varies hf ha scope path hl
  | record h =>
    refine .bind_eq (Program.newRecord_varies (some scope)) fun record => ?_
    exact .bind_eq (addMembers_varies record path h) fun _ => .pure ⟨.record record, hl, rfl⟩
  | var name => exact Program.lookup_varies scope name hl
  | @member e e' m m' he hm =>
    refine .bind (Program.evaluatePart_varies he scope path _) fun v w hvw => ?_
    rw [hm.name]
    exact Program.memberOf_varies hvw m'.name (V.orElse hm.location hl)
  | array h =>
    exact .bind_eq (evaluateItems_varies scope path 0 #[] h) fun cells =>
      .pure ⟨.array _, hl, rfl⟩
  | comprehension ha hb hc => exact evaluateComprehension_varies ev ha hb hc scope path hl
  | index ha hb =>
    refine .bind (Program.evaluatePart_varies ha scope path _) fun v w hvw => ?_
    refine .check_eq hvw.asArray fun a => ?_
    refine .bind (Program.evaluatePart_awake hb scope path _) fun v w ⟨hawake, hvw⟩ => ?_
    exact .check_eq hvw.asIndex fun i => elementAt_varies a i (V.expr_location hb hawake)
  | unary op ha => exact evaluateUnary_varies hev op ha scope path hl
  | binary op ha hb =>
    refine .bind (Program.evaluatePart_varies ha scope path _) fun v v' hv => ?_
    refine .bind (Program.evaluatePart_varies hb scope path _) fun w w' hw => ?_
    have hsite : Site.Varies V ⟨op, l, path⟩ ⟨op, l', path⟩ := ⟨rfl, hl, rfl⟩
    exact Operator.apply_varies hsite hv hw hev

/-- What a computation does varies, unless it is idle. -/
theorem taskProgram_varies {task task' : Task} (h : task.Varies V task')
    (hawake : ¬task.Idle V) :
    (ev.taskProgram task).VariesValue V (ev.taskProgram task') := by
  cases h with
  | evaluate he scope path =>
    exact evaluateKind_varies hev (V.expr_kind he hawake) (V.expr_location he hawake) scope path
  | element hf hv path hl => exact Function.apply_varies hf (.cons hv .nil) .nil hl path
  | constant h => exact .pure h

end Evaluator

end NetDesc
