import Mathlib.Data.Option.Basic
import NetDesc.Proofs.Matching.Literal
import NetDesc.Proofs.Operators.Dispatch

namespace NetDesc

/-- What the type makes of records that correspond does so, too. -/
def RuntimeType.Corresponds (K : Comparison) (type : RuntimeType) : Prop :=
  ∀ ⦃m : Matching⦄ ⦃r k : RecordId⦄, m .record r k → ∀ (location : Location) (path : String),
    (type.construct r location path).CorrespondsValue K m (type.construct k location path)

namespace Registry

/-- What all types make of records that correspond does so, too. -/
def Corresponds (K : Comparison) (registry : Registry) : Prop :=
  ∀ entry ∈ registry.types, entry.2.Corresponds K

variable {K : Comparison} {m : Matching} {r k : RecordId}

/-- Both sides name what they have made after the same path. -/
theorem instantiate_corresponds {type : RuntimeType} (htype : type.Corresponds K)
    (hrk : m .record r k) (location : Location) (path : String) :
    (instantiate type r location path).CorrespondsValue K m
      (instantiate type k location path) := by
  refine .bind (htype hrk location path) fun n v w hmn hvw => ?_
  obtain ⟨x, place, via⟩ := v
  obtain ⟨y, place', via'⟩ := w
  cases hvw.payload with
  | object ho =>
    exact .bind_eq (Program.rename_corresponds ho path) fun _ _ hnn => .pure (hvw.mono hnn)
  | _ => exact .pure hvw

/-- Both look up the same type, or find none. -/
theorem runtimeType_corresponds {registry : Registry} (h : registry.Corresponds K) (name : String)
    (location : Location) {p q : RuntimeType → Program Value}
    (hpq : ∀ type : RuntimeType, type.Corresponds K → (p type).CorrespondsValue K m (q type)) :
    (Program.ofExcept (registry.runtimeType name location) >>= p).CorrespondsValue K m
      (Program.ofExcept (registry.runtimeType name location) >>= q) := by
  unfold runtimeType
  cases hfound : registry.find? name with
  | none => exact .raise _
  | some type =>
    obtain ⟨before, after, heq, -⟩ := List.lookup_eq_some_iff.1 hfound
    exact hpq type (h (name, type) (by simp [heq]))

theorem construct_corresponds {registry : Registry} (h : registry.Corresponds K) (name : String)
    (hrk : m .record r k) (location : Location) (path : String) :
    (registry.construct name r location path).CorrespondsValue K m
      (registry.construct name k location path) :=
  runtimeType_corresponds h name location fun _ htype =>
    instantiate_corresponds htype hrk location path

end Registry

/-- A name with a value, and the same name with one that corresponds to it. -/
structure Value.CorrespondsNamed (K : Comparison) (m : Matching) (x y : String × Value) : Prop where
  name : x.1 = y.1
  value : x.2.Corresponds K m y.2

variable {K : Comparison} {m : Matching}

namespace Value

theorem forall₂_mono {n : Matching} (hmn : m ≤ n) {vs ws : List Value}
    (h : List.Forall₂ (Corresponds K m) vs ws) : List.Forall₂ (Corresponds K n) vs ws :=
  h.imp fun _ _ hvw => hvw.mono hmn

theorem CorrespondsNamed.forall₂_mono {n : Matching} (hmn : m ≤ n)
    {xs ys : List (String × Value)} (h : List.Forall₂ (CorrespondsNamed K m) xs ys) :
    List.Forall₂ (CorrespondsNamed K n) xs ys :=
  h.imp fun _ _ hxy => ⟨hxy.name, hxy.value.mono hmn⟩

/-- Both lists pass an argument of this name, or neither does. -/
theorem CorrespondsNamed.any_eq {xs ys : List (String × Value)}
    (h : List.Forall₂ (CorrespondsNamed K m) xs ys) (name : String) :
    xs.any (·.1 == name) = ys.any (·.1 == name) :=
  any_name_eq (h.imp fun _ _ hxy => hxy.name) name

end Value

/-- Cells that correspond stay so. -/
theorem Matching.forall₂_mono {n : Matching} (hmn : m ≤ n) {T : Table} {is js : List Nat}
    (h : List.Forall₂ (m T) is js) : List.Forall₂ (n T) is js :=
  h.imp fun _ _ hij => hmn _ _ _ hij

namespace Function

variable {scope scope' : RecordId}

/-- Arguments that correspond join records that do, under the same names and in the same order. -/
theorem bindPositional_corresponds (hscope : m .record scope scope')
    {args args' : List (String × Value)}
    (hargs : List.Forall₂ (Value.CorrespondsNamed K m) args args') :
    (bindPositional scope args).CorrespondsEq K m (bindPositional scope' args') := by
  induction args generalizing m args' with
  | nil =>
    cases hargs
    exact .pure rfl
  | cons arg args ih =>
    cases hargs with
    | @cons _ arg' _ args' harg hargs =>
      obtain ⟨name, v⟩ := arg
      obtain ⟨name', w⟩ := arg'
      obtain rfl : name = name' := harg.name
      refine .bind_eq (Program.addValue_corresponds hscope name harg.value) fun n _ hmn => ?_
      exact ih (hmn _ _ _ hscope) (Value.CorrespondsNamed.forall₂_mono hmn hargs)

/-- The defaults that are bound are those of the parameters that no argument is passed for, and
    these are the same on both sides. -/
theorem bindDefaults_corresponds (hscope : m .record scope scope')
    {passed passed' : List (String × Value)}
    (hpassed : List.Forall₂ (Value.CorrespondsNamed K m) passed passed')
    {named named' : List (String × CellId)}
    (hnamed : List.Forall₂ (fun x y => x.1 = y.1 ∧ m .cell x.2 y.2) named named') :
    (bindDefaults scope passed named).CorrespondsEq K m
      (bindDefaults scope' passed' named') := by
  induction named generalizing m named' with
  | nil =>
    cases hnamed
    exact .pure rfl
  | cons default rest ih =>
    cases hnamed with
    | @cons _ default' _ rest' hdefault hrest =>
      obtain ⟨name, cell⟩ := default
      obtain ⟨name', cell'⟩ := default'
      obtain ⟨rfl, hcell⟩ : name = name' ∧ m .cell cell cell' := hdefault
      have hih {n : Matching} (hmn : m ≤ n) := ih (hmn _ _ _ hscope)
        (Value.CorrespondsNamed.forall₂_mono hmn hpassed)
        (hrest.imp fun _ _ hx => ⟨hx.1, hmn _ _ _ hx.2⟩)
      refine .bind (Program.readRecord_corresponds hscope) fun n r k hmn hrk => ?_
      rw [Value.CorrespondsNamed.any_eq hpassed, hrk.contains_eq]
      split
      · exact hih hmn
      · refine .bind (Program.readCell_corresponds (hmn _ _ _ hcell)) fun u c d hnu hcd => ?_
        have hmu := le_trans hmn hnu
        refine .bind_eq (Program.addMember_corresponds (hmu _ _ _ hscope) name
          ⟨hcd.location, hmu _ _ _ hcell⟩) fun w _ huw => ?_
        exact hih (le_trans hmu huw)

theorem bindNamed_corresponds (hscope : m .record scope scope') (location : Location)
    {args args' : List (String × Value)}
    (hargs : List.Forall₂ (Value.CorrespondsNamed K m) args args') :
    (bindNamed scope location args).CorrespondsEq K m (bindNamed scope' location args') := by
  induction args generalizing m args' with
  | nil =>
    cases hargs
    exact .pure rfl
  | cons arg args ih =>
    cases hargs with
    | @cons _ arg' _ args' harg hargs =>
      obtain ⟨name, v⟩ := arg
      obtain ⟨name', w⟩ := arg'
      obtain rfl : name = name' := harg.name
      refine .bind (Program.readRecord_corresponds hscope) fun n r k hmn hrk => ?_
      refine .ite (by rw [hrk.contains_eq]) (.raise _) ?_
      refine .bind_eq (Program.addValue_corresponds (hmn _ _ _ hscope) name
        (harg.value.mono hmn)) fun u _ hnu => ?_
      have hmu := le_trans hmn hnu
      exact ih (hmu _ _ _ hscope) (Value.CorrespondsNamed.forall₂_mono hmu hargs)

theorem zip_corresponds (params : List String) {args args' : List Value}
    (hargs : List.Forall₂ (Value.Corresponds K m) args args') :
    List.Forall₂ (Value.CorrespondsNamed K m) (params.zip args) (params.zip args') :=
  (zip_names hargs params).imp fun _ _ hxy => ⟨hxy.1, hxy.2⟩

variable {f g : Function} (hf : f.Corresponds K m g) {args args' : List Value}
  (hargs : List.Forall₂ (Value.Corresponds K m) args args') {named named' : List (String × Value)}
  (hnamed : List.Forall₂ (Value.CorrespondsNamed K m) named named') (location : Location)

include hf hargs hnamed

/-- The records of parameters correspond from when they are made, empty, and every argument is
    added to both of them. -/
theorem bindArguments_corresponds :
    (f.bindArguments args named location).Corresponds K m (· .record)
      (g.bindArguments args' named' location) := by
  unfold bindArguments
  rw [hf.params, hf.arity_eq, hargs.length_eq]
  refine .ite Iff.rfl ?_ (.raise _)
  refine .bind (Program.newRecord_corresponds (.some hf.scope)) fun n r k hmn hrk => ?_
  refine .bind_eq (bindPositional_corresponds hrk
    (zip_corresponds g.params (Value.forall₂_mono hmn hargs))) fun u _ hnu => ?_
  have hmu := le_trans hmn hnu
  refine .bind_eq (bindDefaults_corresponds (hnu _ _ _ hrk)
    (Value.CorrespondsNamed.forall₂_mono hmu hnamed) (hf.mono hmu).named) fun w _ huw => ?_
  have hmw := le_trans hmu huw
  have hrk' := huw _ _ _ (hnu _ _ _ hrk)
  refine .bind_eq (bindNamed_corresponds hrk' location
    (Value.CorrespondsNamed.forall₂_mono hmw hnamed)) fun x _ hwx => ?_
  exact .pure (hwx _ _ _ hrk')

/-- Functions that correspond, called with arguments that correspond, have bodies and scopes that
    do. -/
theorem apply_corresponds (path : String) :
    (f.apply args named path location).CorrespondsValue K m
      (g.apply args' named' path location) := by
  unfold Function.apply
  rw [hf.name]
  exact .bind (bindArguments_corresponds hf hargs hnamed location) fun _ _ _ _ hscope =>
    Program.evaluatePart_corresponds hf.body hscope path _

end Function

namespace Operator

section Scalars

variable {site : Site} {u : Value}

theorem onNumbers?_scalar {x y : Float} (hu : u ∈ onNumbers? site x y) : u.payload.IsScalar := by
  rcases (Option.orElse_eq_some _ _ _).1 hu with hu | ⟨-, hu⟩
  · obtain ⟨z, -, rfl⟩ := Option.map_eq_some_iff.1 hu
    trivial
  · obtain ⟨b, -, rfl⟩ := Option.map_eq_some_iff.1 hu
    trivial

theorem onTexts?_scalar {s t : String} (hu : u ∈ onTexts? site s t) : u.payload.IsScalar := by
  unfold onTexts? at hu
  split at hu
  · obtain rfl := Option.mem_some_iff.1 hu
    trivial
  · obtain ⟨b, -, rfl⟩ := Option.map_eq_some_iff.1 hu
    trivial

theorem onTruths?_scalar {a b : Bool} (hu : u ∈ onTruths? site a b) : u.payload.IsScalar := by
  obtain ⟨c, -, rfl⟩ := Option.map_eq_some_iff.1 hu
  trivial

end Scalars

variable {v v' w w' : Value} (hv : v.Corresponds K m v') (hw : w.Corresponds K m w') (site : Site)

include hv in
theorem isNumber_eq_of_corresponds : isNumber v = isNumber v' := by
  obtain ⟨x, l, path⟩ := v
  obtain ⟨x', l', path'⟩ := v'
  cases hv.payload <;> rfl

include hv hw

theorem of?_eq_of_corresponds : OperandPair.of? v w = OperandPair.of? v' w' := by
  obtain ⟨x, l, path⟩ := v
  obtain ⟨x', l', path'⟩ := v'
  obtain ⟨y, k, via⟩ := w
  obtain ⟨y', k', via'⟩ := w'
  cases hv.payload <;> cases hw.payload <;> rfl

theorem invalidOperands_corresponds :
    (Program.raise (site.invalidOperands v w) : Program Value).CorrespondsValue K m
      (.raise (site.invalidOperands v' w')) := by
  rw [Site.invalidOperands, hv.typeName_eq, hw.typeName_eq]
  exact .raise _

/-- What is computed from plain values refers to nothing. -/
theorem orInvalid_corresponds {result : Option Value}
    (hresult : ∀ u ∈ result, u.Corresponds K m u) :
    (orInvalid site v w result).CorrespondsValue K m (orInvalid site v' w' result) := by
  cases result with
  | none => exact invalidOperands_corresponds hv hw site
  | some u => exact .pure (hresult u rfl)

theorem graphFields_corresponds (className : String) :
    (graphFields site className v w).Corresponds K m (· .record)
      (graphFields site className v' w') := by
  refine .bind (Program.newRecord_corresponds .none) fun n r k hmn hrk => ?_
  have hclass : (site.textValue className).Corresponds K n (site.textValue className) :=
    ⟨.text className, rfl, rfl⟩
  refine .bind_eq (Program.addValue_corresponds hrk "class" hclass) fun u _ hnu => ?_
  have hmu := le_trans hmn hnu
  refine .bind (Program.ready_corresponds (hv.mono hmu)) fun x c c' hux hc => ?_
  have hmx := le_trans hmu hux
  refine .bind (Program.ready_corresponds (hw.mono hmx)) fun y d d' hxy hd => ?_
  have hrk' := hxy _ _ _ (hux _ _ _ (hnu _ _ _ hrk))
  have hinputs : LazyArray.Corresponds y { cells := #[c, d] } { cells := #[c', d'] } :=
    ⟨rfl, .cons (hxy _ _ _ hc) (.cons hd .nil)⟩
  refine .bind_eq (Program.addValue_corresponds hrk' "inputs"
    ⟨.array hinputs, hv.location, rfl⟩) fun z _ hyz => ?_
  exact .pure (hyz _ _ _ hrk')

variable {registry : Registry} (h : registry.Corresponds K)

include h

/-- An operator on objects fills in the fields of a node with its operands and has the registry
    make it. -/
theorem onObjects_corresponds :
    (onObjects registry site v w).CorrespondsValue K m (onObjects registry site v' w') := by
  obtain ⟨p, p', hp, hp', hfirst, hsecond⟩ : ∃ p p', (if isNumber w' then (w, v) else (v, w)) = p ∧
      (if isNumber w' then (w', v') else (v', w')) = p' ∧
        p.1.Corresponds K m p'.1 ∧ p.2.Corresponds K m p'.2 := by
    split
    · exact ⟨_, _, rfl, rfl, hw, hv⟩
    · exact ⟨_, _, rfl, rfl, hv, hw⟩
  rw [onObjects, onObjects, isNumber_eq_of_corresponds hw, hp, hp']
  dsimp only
  rw [isNumber_eq_of_corresponds hfirst]
  cases (if isNumber p'.1 then scaleClass? site.op else graphClass? site.op) with
  | none => exact invalidOperands_corresponds hfirst hsecond site
  | some className =>
    exact .bind (graphFields_corresponds hfirst hsecond site className) fun _ _ _ _ hfields =>
      Registry.construct_corresponds h _ hfields site.location site.path

theorem applyTo_corresponds :
    (applyTo registry site v w).CorrespondsValue K m (applyTo registry site v' w') := by
  have hobjects := onObjects_corresponds hv hw site h
  have hor {result : Option Value} (hresult : ∀ u ∈ result, u.Corresponds K m u) :=
    orInvalid_corresponds hv hw site hresult
  obtain ⟨x, l, path⟩ := v
  obtain ⟨x', l', path'⟩ := v'
  obtain ⟨y, k, via⟩ := w
  obtain ⟨y', k', via'⟩ := w'
  cases hv.payload with
  | number x =>
    cases hw.payload with
    | number y => exact hor fun u hu => .of_scalar (onNumbers?_scalar hu)
    | _ => exact hobjects
  | text s =>
    cases hw.payload with
    | text t => exact hor fun u hu => .of_scalar (onTexts?_scalar hu)
    | _ => exact hobjects
  | truth a =>
    cases hw.payload with
    | truth b => exact hor fun u hu => .of_scalar (onTruths?_scalar hu)
    | _ => exact hobjects
  | _ => exact hobjects

/-- Operators look at what kind of values their operands are, and these are the same for values
    that correspond. -/
theorem apply_corresponds :
    (apply registry site v w).CorrespondsValue K m (apply registry site v' w') := by
  rw [apply_eq, apply_eq]
  rw [of?_eq_of_corresponds hv hw]
  cases OperandPair.of? v' w' with
  | some pair =>
    exact .ite Iff.rfl (applyTo_corresponds hv hw site h) (invalidOperands_corresponds hv hw site)
  | none => exact invalidOperands_corresponds hv hw site

end Operator

namespace Evaluator

variable {scope scope' : RecordId} (hscope : m .record scope scope') (path : String)

include hscope

/-- Members are suspended in the order in which they are declared. Records whose members come in
    another order are dealt with as a whole, where a literal is evaluated. -/
theorem addMembers_corresponds {bs bs' : List Binding}
    (h : List.Forall₂ (Binding.Varies K.expr Eq) bs bs') :
    (addMembers scope path bs).CorrespondsEq K m (addMembers scope' path bs') := by
  induction h generalizing m with
  | nil => exact .pure rfl
  | cons hb _ ih =>
    unfold addMembers
    rw [hb.name.name, hb.name.location]
    refine .bind (Program.readRecord_corresponds hscope) fun n r k hmn hrk => ?_
    refine .ite (by rw [hrk.contains_eq]) (.raise _) ?_
    refine .bind (Program.suspend_corresponds hb.value (hmn _ _ _ hscope) _) fun u c d hnu hcd => ?_
    have hscope' := hnu _ _ _ (hmn _ _ _ hscope)
    refine .bind_eq (Program.addMember_corresponds hscope' _ ⟨rfl, hcd⟩) fun w _ huw => ?_
    exact ih (huw _ _ _ hscope')

/-- Defaults that are the same cells. -/
abbrev DefaultsCorrespond (m : Matching) : List (String × CellId) → List (String × CellId) → Prop :=
  List.Forall₂ fun x y => x.1 = y.1 ∧ m .cell x.2 y.2

omit hscope in
theorem putDefault_corresponds (name : String) {c d : CellId} (hcd : m .cell c d)
    {found found' : List (String × CellId)} (hfound : DefaultsCorrespond m found found') :
    DefaultsCorrespond m (putDefault name c found) (putDefault name d found') := by
  induction hfound with
  | nil => exact .cons ⟨rfl, hcd⟩ .nil
  | @cons x y found found' hxy hrest ih =>
    obtain ⟨known, cell⟩ := x
    obtain ⟨known', cell'⟩ := y
    obtain ⟨rfl, hcell⟩ : known = known' ∧ m .cell cell cell' := hxy
    unfold putDefault
    split
    · exact .cons ⟨rfl, hcd⟩ hrest
    · exact .cons ⟨rfl, hcell⟩ ih

theorem suspendDefaults_corresponds {found found' : List (String × CellId)}
    (hfound : DefaultsCorrespond m found found') {bs bs' : List Binding}
    (h : List.Forall₂ (Binding.Varies K.expr Eq) bs bs') :
    (suspendDefaults scope path found bs).Corresponds K m DefaultsCorrespond
      (suspendDefaults scope' path found' bs') := by
  induction h generalizing m found found' with
  | nil => exact .pure hfound
  | cons hb _ ih =>
    unfold suspendDefaults
    rw [hb.name.name]
    refine .bind (Program.suspend_corresponds hb.value hscope _) fun n c d hmn hcd => ?_
    refine ih (hmn _ _ _ hscope) (putDefault_corresponds _ hcd ?_)
    exact hfound.imp fun _ _ hxy => ⟨hxy.1, hmn _ _ _ hxy.2⟩

theorem evaluateArguments_corresponds {found found' : Array Value}
    (hfound : List.Forall₂ (Value.Corresponds K m) found.toList found'.toList) {es es' : List Expr}
    (h : List.Forall₂ K.expr es es') (params : List String) :
    (evaluateArguments scope path found (es.zip params)).Corresponds K m
      (fun n => List.Forall₂ (Value.Corresponds K n))
      (evaluateArguments scope' path found' (es'.zip params)) := by
  induction h generalizing m found found' params with
  | nil => exact .pure hfound
  | cons he _ ih =>
    cases params with
    | nil => exact .pure hfound
    | cons param params =>
      refine .bind (Program.evaluatePart_corresponds he hscope path _) fun n v w hmn hvw => ?_
      refine ih (hmn _ _ _ hscope) ?_ params
      simp only [Array.toList_push]
      exact List.rel_append (Value.forall₂_mono hmn hfound) (.cons hvw .nil)

theorem evaluateNamed_corresponds {found found' : Array (String × Value)}
    (hfound : List.Forall₂ (Value.CorrespondsNamed K m) found.toList found'.toList)
    {bs bs' : List Binding} (h : List.Forall₂ (Binding.Varies K.expr Eq) bs bs') :
    (evaluateNamed scope path found bs).Corresponds K m
      (fun n => List.Forall₂ (Value.CorrespondsNamed K n))
      (evaluateNamed scope' path found' bs') := by
  induction h generalizing m found found' with
  | nil => exact .pure hfound
  | cons hb _ ih =>
    unfold evaluateNamed
    rw [hb.name.name, hb.name.location]
    refine .bind (Program.evaluatePart_corresponds hb.value hscope path _)
      fun n v w hmn hvw => ?_
    have hfound' := Value.CorrespondsNamed.forall₂_mono hmn hfound
    refine .ite ?_ (.raise _) (ih (hmn _ _ _ hscope) ?_)
    · rw [← Array.any_toList, ← Array.any_toList, Value.CorrespondsNamed.any_eq hfound]
    · simp only [Array.toList_push]
      exact List.rel_append hfound' (.cons ⟨rfl, hvw⟩ .nil)

/-- Both calls evaluate the function first and then the arguments, as they are written. -/
theorem evaluateApply_corresponds {func func' : Expr} (hfunc : K.expr func func') {a a' : ArgList}
    (ha : a.Varies K.expr Eq a') (location : Location) :
    (evaluateApply func a scope path location).CorrespondsValue K m
      (evaluateApply func' a' scope' path location) := by
  refine .bind (Program.evaluatePart_corresponds hfunc hscope path _) fun n v w hmn hvw => ?_
  refine .check hvw.asFunction fun f g hfg => ?_
  rw [ha.positional.length_eq, hfg.arity_eq, hfg.params, ha.location]
  refine .ite Iff.rfl ?_ (.raise _)
  have hscope' := hmn _ _ _ hscope
  refine .bind (evaluateArguments_corresponds hscope' path .nil ha.positional g.params)
    fun u positional positional' hnu hpositional => ?_
  refine .bind (evaluateNamed_corresponds (hnu _ _ _ hscope') path .nil ha.named)
    fun x named named' hux hnamed => ?_
  exact Function.apply_corresponds (hfg.mono (le_trans hnu hux))
    (Value.forall₂_mono hux hpositional) hnamed location path

theorem evaluateItems_corresponds (count : Nat) {found found' : Array CellId}
    (hfound : List.Forall₂ (m .cell) found.toList found'.toList) {es es' : List Expr}
    (h : List.Forall₂ K.expr es es') :
    (evaluateItems scope path count found es).Corresponds K m
      (fun n cells cells' => List.Forall₂ (n .cell) cells.toList cells'.toList)
      (evaluateItems scope' path count found' es') := by
  induction h generalizing m count found found' with
  | nil => exact .pure hfound
  | @cons e e' rest rest' he _ ih =>
    refine .bind (Program.evaluatePart_corresponds he hscope path _) fun n v w hmn hvw => ?_
    have hscope' := hmn _ _ _ hscope
    have hfound' := Matching.forall₂_mono hmn hfound
    have hpush : Program.Corresponds K n
        (fun n cells cells' => List.Forall₂ (n .cell) cells.toList cells'.toList)
        (do
          let cell ← Program.newCell (.ready v)
          evaluateItems scope path (count + 1) (found.push cell) rest)
        (do
          let cell ← Program.newCell (.ready w)
          evaluateItems scope' path (count + 1) (found'.push cell) rest') := by
      refine .bind (Program.ready_corresponds hvw) fun u c d hnu hcd => ?_
      refine ih (hnu _ _ _ hscope') (count + 1) ?_
      simp only [Array.toList_push]
      exact List.rel_append (Matching.forall₂_mono hnu hfound') (.cons hcd .nil)
    obtain ⟨x, l, via⟩ := v
    obtain ⟨y, l', via'⟩ := w
    cases hvw.payload with
    | array hab =>
      refine ih hscope' (count + 1) ?_
      simp only [Array.toList_append]
      exact List.rel_append hfound' hab.cells
    | _ => exact hpush

omit hscope in
theorem suspendElements_corresponds {f g : Function} (hf : f.Corresponds K m g)
    (place location : Location) {found found' : Array CellId}
    (hfound : List.Forall₂ (m .cell) found.toList found'.toList) (remaining : Nat)
    (index : Int64) :
    (suspendElements f place location path found remaining index).Corresponds K m
      (fun n cells cells' => List.Forall₂ (n .cell) cells.toList cells'.toList)
      (suspendElements g place location path found' remaining index) := by
  induction remaining generalizing m found found' index with
  | zero => exact .pure hfound
  | succ remaining ih =>
    have hindex :
        (Value.number (Number.ofIndex index) location (elementPath path index)).Corresponds K m
          (.number (Number.ofIndex index) location (elementPath path index)) :=
      ⟨.number _, rfl, rfl⟩
    refine .bind (Program.newCell_corresponds (.suspended (.element hf hindex _ place) place _))
      fun n c d hmn hcd => ?_
    refine ih (hf.mono hmn) ?_ (index + 1)
    simp only [Array.toList_push]
    exact List.rel_append (Matching.forall₂_mono hmn hfound) (.cons hcd .nil)

theorem evaluateComprehension_corresponds (ev : Evaluator)
    {first first' last last' init init' : Expr} (hfirst : K.expr first first')
    (hlast : K.expr last last') (hinit : K.expr init init') (location : Location) :
    (ev.evaluateComprehension first last init scope path location).CorrespondsValue K m
      (ev.evaluateComprehension first' last' init' scope' path location) := by
  refine .bind (Program.evaluatePart_corresponds hfirst hscope path _) fun n v w hmn hvw => ?_
  refine .check_eq hvw.asIndex fun low => ?_
  have hscope' := hmn _ _ _ hscope
  refine .bind (Program.evaluatePart_corresponds hlast hscope' path _) fun u v w hnu hvw => ?_
  refine .check_eq hvw.asIndex fun high => ?_
  refine .bind (Program.evaluatePart_corresponds hinit (hnu _ _ _ hscope') path _)
    fun x v w hux hvw => ?_
  refine .check hvw.asFunction fun f g hfg => ?_
  rw [hfg.arity_eq, K.expr_location hinit]
  refine .ite Iff.rfl (.raise _) (.ite Iff.rfl (.raise _) ?_)
  exact .bind (suspendElements_corresponds path hfg _ location .nil _ low)
    fun _ _ _ _ hcells => .pure ⟨.array ⟨rfl, hcells⟩, rfl, rfl⟩

omit hscope in
/-- Arrays that correspond start at the same index and have as many elements, so an index is out
    of range for both or for neither. -/
theorem elementAt_corresponds {a b : LazyArray} (hab : a.Corresponds m b) (index : Int64)
    (location : Location) :
    (elementAt a index location).CorrespondsValue K m (elementAt b index location) := by
  have hlast := LazyArray.last_eq hab.first hab.cells
  have hcell := LazyArray.cellAt?_rel hab.first hab.cells index
  unfold elementAt
  generalize a.cellAt? index = c at hcell ⊢
  generalize b.cellAt? index = d at hcell ⊢
  cases hcell with
  | some hcd => exact Program.force_corresponds hcd
  | none =>
    dsimp only
    rw [hab.first, hlast]
    exact .raise _

variable {ev : Evaluator} (hev : ev.registry.Corresponds K)

include hev

theorem evaluateUnary_corresponds (op : UnaryOp) {e e' : Expr} (he : K.expr e e')
    (location : Location) :
    (ev.evaluateUnary op e scope path location).CorrespondsValue K m
      (ev.evaluateUnary op e' scope' path location) := by
  have hmismatch {n : Matching} {v w : Value} (hvw : v.Corresponds K n w) :
      (Program.raise (.typeMismatch "number" v.typeName location) :
        Program Value).CorrespondsValue K n
        (.raise (.typeMismatch "number" w.typeName location)) := by
    rw [hvw.typeName_eq]
    exact .raise _
  cases op with
  | not =>
    refine .bind (Program.evaluatePart_corresponds he hscope path _) fun n v w hmn hvw => ?_
    exact .check_eq hvw.asTruth fun b => .pure ⟨.truth _, rfl, rfl⟩
  | plus =>
    refine .bind (Program.evaluatePart_corresponds he hscope path _) fun n v w hmn hvw => ?_
    have hmismatch := hmismatch hvw
    obtain ⟨x, place, via⟩ := v
    obtain ⟨y, place', via'⟩ := w
    cases hvw.payload with
    | number x => exact .pure hvw
    | object ho => exact .pure hvw
    | _ => exact hmismatch
  | neg =>
    refine .bind (Program.evaluatePart_corresponds he hscope path _) fun n v w hmn hvw => ?_
    have hmismatch := hmismatch hvw
    obtain ⟨x, place, via⟩ := v
    obtain ⟨y, place', via'⟩ := w
    cases hvw.payload with
    | number x => exact .pure ⟨.number _, rfl, rfl⟩
    | object ho =>
      have hminusOne : (Value.number (-1) location path).Corresponds K n
          (.number (-1) location path) :=
        ⟨.number _, rfl, rfl⟩
      exact Operator.apply_corresponds hminusOne hvw ⟨.mul, location, path⟩ hev
    | _ => exact hmismatch

theorem evaluateNew_corresponds {type type' : Ident} (htype : type.Varies Eq type') {e e' : Expr}
    (he : K.expr e e') (location : Location) :
    (ev.evaluateNew type e scope path location).CorrespondsValue K m
      (ev.evaluateNew type' e' scope' path location) := by
  unfold evaluateNew
  rw [htype.name, htype.location]
  refine Registry.runtimeType_corresponds hev type'.name _ fun t ht => ?_
  refine .bind (Program.evaluate_corresponds he hscope _) fun n v w hmn hvw => ?_
  exact .check hvw.asRecord fun r k hrk => Registry.instantiate_corresponds ht hrk location path

/-- Expressions of the same form mean what corresponds. -/
theorem evaluateKind_varies_corresponds {k k' : ExprKind} (hk : k.Varies K.expr Eq k')
    (location : Location) :
    (ev.evaluateKind k location scope path).CorrespondsValue K m
      (ev.evaluateKind k' location scope' path) := by
  cases hk with
  | number x => exact .pure ⟨.number x, rfl, rfl⟩
  | text s => exact .pure ⟨.text s, rfl, rfl⟩
  | truth b => exact .pure ⟨.truth b, rfl, rfl⟩
  | new ht he => exact evaluateNew_corresponds hscope path hev ht he location
  | conditional hc ht he =>
    refine .bind (Program.evaluatePart_corresponds hc hscope path _) fun n v w hmn hvw => ?_
    refine .check_eq hvw.asTruth fun b => ?_
    cases b with
    | true => exact Program.evaluatePart_corresponds ht (hmn _ _ _ hscope) path _
    | false => exact Program.evaluatePart_corresponds he (hmn _ _ _ hscope) path _
  | lambda hp he =>
    refine .bind (suspendDefaults_corresponds hscope path .nil hp.named)
      fun n named named' hmn hnamed => ?_
    exact .pure ⟨.function ⟨hp.positional, hnamed, he, hmn _ _ _ hscope, rfl⟩, rfl, rfl⟩
  | apply hf ha => exact evaluateApply_corresponds hscope path hf ha location
  | record h =>
    refine .bind (Program.newRecord_corresponds (.some hscope)) fun n r k hmn hrk => ?_
    exact .bind_eq (addMembers_corresponds hrk path h) fun u _ hnu =>
      .pure ⟨.record (hnu _ _ _ hrk), rfl, rfl⟩
  | var name => exact Program.lookup_corresponds hscope name location
  | member he hm =>
    refine .bind (Program.evaluatePart_corresponds he hscope path _) fun n v w hmn hvw => ?_
    rw [hm.name, hm.location]
    exact Program.memberOf_corresponds hvw _ _
  | array h =>
    exact .bind (evaluateItems_corresponds hscope path 0 .nil h) fun _ _ _ _ hcells =>
      .pure ⟨.array ⟨rfl, hcells⟩, rfl, rfl⟩
  | comprehension ha hb hc =>
    exact evaluateComprehension_corresponds hscope path ev ha hb hc location
  | index ha hb =>
    refine .bind (Program.evaluatePart_corresponds ha hscope path _) fun n v w hmn hvw => ?_
    refine .check hvw.asArray fun a b hab => ?_
    refine .bind (Program.evaluatePart_corresponds hb (hmn _ _ _ hscope) path _)
      fun u v w hnu hvw => ?_
    rw [K.expr_location hb]
    refine .check_eq hvw.asIndex fun i => ?_
    exact elementAt_corresponds ⟨hab.first, Matching.forall₂_mono hnu hab.cells⟩ i _
  | unary op ha => exact evaluateUnary_corresponds hscope path hev op ha location
  | binary op ha hb =>
    refine .bind (Program.evaluatePart_corresponds ha hscope path _) fun n v v' hmn hv => ?_
    refine .bind (Program.evaluatePart_corresponds hb (hmn _ _ _ hscope) path _)
      fun u w w' hnu hw => ?_
    exact Operator.apply_corresponds (hv.mono hnu) hw ⟨op, location, path⟩ hev

/-- What an expression means corresponds to what any means that it may be rearranged to. It
    depends on the places it refers to only through what they hold. -/
theorem evaluateKind_corresponds {k k' : ExprKind} (hk : k.Rearranges K.expr K.ordered k')
    (location : Location) :
    (ev.evaluateKind k location scope path).CorrespondsValue K m
      (ev.evaluateKind k' location scope' path) := by
  cases hk with
  | same h => exact evaluateKind_varies_corresponds hscope path hev h location
  | record hfree hparts horder hnames =>
    exact rearranged_corresponds hfree ev hparts horder hnames location hscope path

omit hscope in
/-- What two cells put off corresponds if the cells do. With this, to force them has values that
    correspond, by induction on how calls are carried out. -/
theorem taskProgram_corresponds {task task' : Task} (h : task.Corresponds K m task') :
    (ev.taskProgram task).CorrespondsValue K m (ev.taskProgram task') := by
  cases h with
  | @evaluate e e' he scope scope' hscope path =>
    change (ev.evaluateKind e.kind e.location scope path).CorrespondsValue K m
      (ev.evaluateKind e'.kind e'.location scope' path)
    rw [K.expr_location he]
    exact evaluateKind_corresponds hscope path hev (K.expr_kind he) e'.location
  | element hf hv path location =>
    exact Function.apply_corresponds hf (.cons hv .nil) .nil location path
  | constant h => exact .pure h

end Evaluator

end NetDesc
