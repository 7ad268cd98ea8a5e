import NetDesc.Proofs.Operators.Dispatch
import NetDesc.Proofs.Scoping.Scopes

namespace NetDesc

/-- The type only reads its fields, and makes placed values. -/
def RuntimeType.Places (t : RuntimeType) : Prop :=
  ∀ (S : Scoping) (carryOut : (c : Call) → Store → Outcome c.Reply) (fields : RecordId)
    (location : Location) (path : String) (base : Nat) (s : Store), s.FieldsPlaced S base fields →
    (t.construct fields location path).Maintains S carryOut base s fun b u v => v.Placed S b u

/-- All types of the registry only read their fields, and make placed values. -/
def Registry.Places (r : Registry) : Prop :=
  ∀ p ∈ r.types, p.2.Places

variable {S : Scoping} {carryOut : (c : Call) → Store → Outcome c.Reply} {base : Nat} {s : Store}

namespace Registry

theorem runtimeType_places {r : Registry} (hr : r.Places) {name : String} {location : Location}
    {t : RuntimeType} (ht : r.runtimeType name location = .ok t) : t.Places := by
  unfold runtimeType at ht
  split at ht
  · next found hfound =>
    cases ht
    obtain ⟨l, l', heq, -⟩ := List.lookup_eq_some_iff.1 hfound
    exact hr (name, t) (by simp [heq])
  · cases ht

theorem instantiate_maintains {t : RuntimeType} (ht : t.Places) {fields : RecordId}
    (hfields : s.FieldsPlaced S base fields) (location : Location) (path : String) :
    (instantiate t fields location path).Maintains S carryOut base s fun b u v =>
      v.Placed S b u := by
  refine .bind (ht S carryOut fields location path base s hfields) fun b u v _ _ hv => ?_
  split
  · next o ho =>
    refine .bind (P := fun b' _ _ => b' = b) (.step trivial fun _ => rfl) ?_
    rintro _ w - huw - rfl
    exact .pure (hv.later huw (Nat.le_refl _))
  · exact .pure hv

/-- What is made of placed fields is placed. -/
theorem construct_maintains {r : Registry} (hr : r.Places) (name : String) {fields : RecordId}
    (hfields : s.FieldsPlaced S base fields) (location : Location) (path : String) :
    (r.construct name fields location path).Maintains S carryOut base s fun b u v =>
      v.Placed S b u :=
  .check fun _ ht => instantiate_maintains (runtimeType_places hr ht) hfields location path

end Registry

namespace Operator

theorem orInvalid_maintains (site : Site) (left right : Value) {result : Option Value}
    (hresult : ∀ v, result = some v → v.Placed S base s) :
    (orInvalid site left right result).Maintains S carryOut base s fun b t v =>
      v.Placed S b t := by
  cases result with
  | none => exact .raise _
  | some v => exact .pure (hresult v rfl)

/-- Operators compute scalars, which refer to nothing. -/
theorem onNumbers?_placed {site : Site} {x y : Float} {v : Value}
    (hv : onNumbers? site x y = some v) : v.Placed S base s := by
  simp only [onNumbers?, Option.orElse_eq_orElse, Option.orElse_eq_or, Option.or_eq_some_iff,
    Option.map_eq_some_iff] at hv
  rcases hv with ⟨z, -, rfl⟩ | ⟨-, z, -, rfl⟩ <;> trivial

theorem onTexts?_placed {site : Site} {x y : String} {v : Value}
    (hv : onTexts? site x y = some v) : v.Placed S base s := by
  unfold onTexts? at hv
  split at hv
  · cases hv
    trivial
  · obtain ⟨z, -, rfl⟩ := Option.map_eq_some_iff.1 hv
    trivial

theorem onTruths?_placed {site : Site} {a b : Bool} {v : Value}
    (hv : onTruths? site a b = some v) : v.Placed S base s := by
  obtain ⟨z, -, rfl⟩ := Option.map_eq_some_iff.1 hv
  trivial

/-- A known value joins the fields of a record that is being made. -/
theorem addField_maintains {fields : RecordId} (hfields : s.FieldsPlaced S base fields)
    (name : String) {v : Value} (hv : v.Placed S base s) :
    (Program.addValue fields name v).Maintains S carryOut base s fun b t _ =>
      b = base ∧ t.FieldsPlaced S b fields := by
  refine .bind (Program.ready_maintains hv) ?_
  rintro b t cell hst - ⟨rfl, hrecords, hcell, htask⟩
  have hsame : t.record fields = s.record fields := by simp only [Store.record, hrecords]
  refine (Program.addMember_maintains name _ (by simpa only [hrecords] using hfields.1)).imp ?_
  rintro b u - htu - ⟨rfl, hcells, hlt, hrecord⟩
  refine ⟨rfl, hlt, fun p hp => ?_⟩
  rw [hrecord, hsame] at hp
  obtain rfl | ⟨hp, -⟩ := Record.mem_add hp
  · refine ⟨hcells ▸ hcell, ?_⟩
    rw [htu.task _ hcell, htask]
    trivial
  · exact (hfields.2 p hp).later (hst.trans htu (Nat.le_refl _)) (Nat.le_refl _)

/-- The record with the fields of a node that an operator makes. It is no scope of any
    expression, so all that is asked of it is that its members are placed. -/
theorem graphFields_maintains (site : Site) (className : String) {left right : Value}
    (hleft : left.Placed S base s) (hright : right.Placed S base s) :
    (graphFields site className left right).Maintains S carryOut base s fun b t fields =>
      t.FieldsPlaced S b fields := by
  refine .bind (Program.newRecord_maintains none) ?_
  rintro b t fields hst - ⟨rfl, -, hlt, hrecord⟩
  have hempty : t.FieldsPlaced S b fields := ⟨hlt, by simp [Store.MembersPlaced, hrecord]⟩
  refine .bind (addField_maintains hempty "class" (v := site.textValue className) trivial) ?_
  rintro b u - htu - ⟨rfl, hclass⟩
  have hsu := hst.trans htu (Nat.le_refl _)
  refine .bind (Program.ready_maintains (hleft.later hsu (Nat.le_refl _))) ?_
  rintro b v first huv - ⟨rfl, hrecords, hfirst, htask⟩
  have hsv := hsu.trans huv (Nat.le_refl _)
  refine .bind (Program.ready_maintains (hright.later hsv (Nat.le_refl _))) ?_
  rintro b w second hvw - ⟨rfl, hrecords', hsecond, htask'⟩
  have hsame : w.record fields = u.record fields := by
    simp only [Store.record, hrecords', hrecords]
  have hkept : w.FieldsPlaced S b fields := by
    refine ⟨by simpa only [hrecords', hrecords] using hclass.1, fun p hp => ?_⟩
    rw [hsame] at hp
    exact (hclass.2 p hp).later (huv.trans hvw (Nat.le_refl _)) (Nat.le_refl _)
  have hinputs : ∀ c ∈ #[first, second], w.CellPlaced S b c := by
    intro c hc
    have hc : c = first ∨ c = second := by simpa using hc
    obtain rfl | rfl := hc
    · exact Store.CellPlaced.later hvw (Nat.le_refl _) ⟨hfirst, htask ▸ trivial⟩
    · exact ⟨hsecond, htask' ▸ trivial⟩
  refine .bind (addField_maintains hkept "inputs" hinputs) ?_
  rintro b x - - - ⟨rfl, hfilled⟩
  exact .pure hfilled

theorem onObjects_maintains {r : Registry} (hr : r.Places) (site : Site) {left right : Value}
    (hleft : left.Placed S base s) (hright : right.Placed S base s) :
    (onObjects r site left right).Maintains S carryOut base s fun b t v => v.Placed S b t := by
  refine onObjects_elim (P := (·.Maintains S carryOut base s fun b t v => v.Placed S b t)) ?_
    fun _ _ => .raise _
  intro className first second hboth
  obtain ⟨hfirst, hsecond⟩ := hboth (·.Placed S base s) hleft hright
  exact .bind (graphFields_maintains site className hfirst hsecond) fun _ _ _ _ _ hfields =>
    Registry.construct_maintains hr _ hfields _ _

/-- Operators look nothing up. What they give is a scalar or a node of placed operands. -/
theorem apply_maintains {r : Registry} (hr : r.Places) (site : Site) {left right : Value}
    (hleft : left.Placed S base s) (hright : right.Placed S base s) :
    (apply r site left right).Maintains S carryOut base s fun b t v => v.Placed S b t := by
  refine apply_elim (P := (·.Maintains S carryOut base s fun b t v => v.Placed S b t)) ?numbers
    ?texts ?truths ?objects (.raise _)
  case numbers =>
    exact fun _ _ => orInvalid_maintains site left right fun v hv => onNumbers?_placed hv
  case texts =>
    exact fun _ _ => orInvalid_maintains site left right fun v hv => onTexts?_placed hv
  case truths =>
    exact fun _ _ => orInvalid_maintains site left right fun v hv => onTruths?_placed hv
  case objects => exact onObjects_maintains hr site hleft hright

end Operator

namespace Value

variable {v : Value}

theorem asRecord_placed (hv : v.Placed S base s) {id : RecordId} (h : v.asRecord = .ok id) :
    s.RecordPlaced S base id := by
  obtain ⟨payload, location, path⟩ := v
  cases payload <;> cases h
  exact hv

theorem asArray_placed (hv : v.Placed S base s) {a : LazyArray} (h : v.asArray = .ok a) :
    ∀ c ∈ a.cells, s.CellPlaced S base c := by
  obtain ⟨payload, location, path⟩ := v
  cases payload <;> cases h
  exact hv

theorem asFunction_placed (hv : v.Placed S base s) {f : Function} (h : v.asFunction = .ok f) :
    f.Placed S base s := by
  obtain ⟨payload, location, path⟩ := v
  cases payload <;> cases h
  exact hv

end Value

namespace Evaluator

theorem mem_names_putDefault {name other : String} {cell : CellId}
    {found : List (String × CellId)} :
    other ∈ (putDefault name cell found).map (·.1) ↔ other = name ∨ other ∈ found.map (·.1) := by
  induction found with
  | nil => simp [putDefault]
  | cons p found ih =>
    unfold putDefault
    split
    · next h => simp [h]
    · rw [List.map_cons, List.mem_cons, ih, List.map_cons, List.mem_cons]
      tauto

/-- Defaults are suspended where the function stands. -/
theorem suspendDefaults_maintains {scope : RecordId} (path : String) {all : List Binding}
    {found : List (String × CellId)} {named : List Binding} (hnamed : ∀ d ∈ named, d ∈ all)
    (hfound : ∀ p ∈ found, p.2 < s.cells.size ∧ ∃ d ∈ all, d.name.name = p.1 ∧
      ∃ path, (s.cell p.2).task = .evaluate d.value scope path) :
    (suspendDefaults scope path found named).Maintains S carryOut base s fun b t defaults =>
      b = base ∧ (∀ p ∈ defaults, p.2 < t.cells.size ∧ ∃ d ∈ all, d.name.name = p.1 ∧
        ∃ path, (t.cell p.2).task = .evaluate d.value scope path) ∧
      (∀ name ∈ found.map (·.1), name ∈ defaults.map (·.1)) ∧
        ∀ d ∈ named, d.name.name ∈ defaults.map (·.1) := by
  induction named generalizing s found with
  | nil => exact .pure ⟨rfl, hfound, fun _ h => h, by simp⟩
  | cons d rest ih =>
    rw [List.forall_mem_cons] at hnamed
    refine .bind (Program.suspended_maintains _ _ _) ?_
    rintro b t cell hst - ⟨rfl, -, hcell, htask⟩
    have hfound' : ∀ p ∈ putDefault d.name.name cell found, p.2 < t.cells.size ∧
        ∃ d ∈ all, d.name.name = p.1 ∧
          ∃ path, (t.cell p.2).task = .evaluate d.value scope path := by
      intro p hp
      obtain rfl | hp := mem_putDefault hp
      · exact ⟨hcell, d, hnamed.1, rfl, _, htask⟩
      · obtain ⟨hlt, d', hd', hname, path, htask'⟩ := hfound p hp
        refine ⟨Nat.lt_of_lt_of_le hlt hst.covers.cells, d', hd', hname, path, ?_⟩
        rw [hst.task _ hlt, htask']
    refine (ih hnamed.2 hfound').imp ?_
    rintro b u defaults - - ⟨rfl, hdefaults, hkept, hcomplete⟩
    refine ⟨rfl, hdefaults, fun name hname => hkept name ?_, ?_⟩
    · exact mem_names_putDefault.2 (.inr hname)
    · rw [List.forall_mem_cons]
      exact ⟨hkept _ (mem_names_putDefault.2 (.inl rfl)), hcomplete⟩

theorem evaluateArguments_maintains {scope : RecordId} (path : String) {found : Array Value}
    (hfound : ∀ v ∈ found, v.Placed S base s) {args : List (Expr × String)}
    (hargs : ∀ arg ∈ args, arg.1.Placed S base s scope) :
    (evaluateArguments scope path found args).Maintains S carryOut base s fun b t values =>
      ∀ v ∈ values, v.Placed S b t := by
  induction args generalizing base s found with
  | nil => exact .pure fun v hv => hfound v (Array.mem_toList_iff.1 hv)
  | cons arg rest ih =>
    rw [List.forall_mem_cons] at hargs
    refine .bind (Program.evaluate_maintains hargs.1 _) ?_
    rintro b t v hst hle ⟨-, -, hv, -⟩
    refine ih (fun w hw => ?_) fun arg harg => (hargs.2 arg harg).later hst hle
    obtain hw | rfl := Array.mem_push.1 hw
    · exact (hfound w hw).later hst hle
    · exact hv

/-- Named arguments are placed values, and each goes by a name under which one is passed. -/
theorem evaluateNamed_maintains {scope : RecordId} (path : String) (all : List Binding)
    {found : Array (String × Value)} {named : List Binding}
    (hfound : ∀ p ∈ found, p.2.Placed S base s ∧ p.1 ∈ all.map (·.name.name))
    (hnamed : ∀ arg ∈ named, arg.value.Placed S base s scope ∧ arg ∈ all) :
    (evaluateNamed scope path found named).Maintains S carryOut base s fun b t values =>
      ∀ p ∈ values, p.2.Placed S b t ∧ p.1 ∈ all.map (·.name.name) := by
  induction named generalizing base s found with
  | nil => exact .pure fun p hp => hfound p (Array.mem_toList_iff.1 hp)
  | cons arg rest ih =>
    rw [List.forall_mem_cons] at hnamed
    refine .bind (Program.evaluate_maintains hnamed.1.1 _) ?_
    rintro b t v hst hle ⟨-, -, hv, -⟩
    split
    · exact .raise _
    · refine ih (fun p hp => ?_) fun arg harg =>
        ⟨(hnamed.2 arg harg).1.later hst hle, (hnamed.2 arg harg).2⟩
      obtain hp | rfl := Array.mem_push.1 hp
      · exact ⟨(hfound p hp).1.later hst hle, (hfound p hp).2⟩
      · exact ⟨hv, List.mem_map_of_mem hnamed.1.2⟩

/-- What is known of a call once the function is: it declares the named arguments. This is all
    that calls need to know of how they are carried out. -/
def DeclaredAt (carryOut : (c : Call) → Store → Outcome c.Reply) (func : Expr) (args : ArgList)
    (scope : RecordId) (path : String) (s : Store) : Prop :=
  ∀ (v : Value) (t : Store) (f : Function),
    carryOut (.perform (.evaluate func scope (joinPath path "_lambda"))) s = .value v t →
      v.asFunction = .ok f → args.positional.length = f.arity →
        ∀ arg ∈ args.named, arg.name.name ∈ f.named.map (·.1)

/-- A call makes the scope of the body and seals it once all arguments are bound. If only
    declared arguments may be passed, it is here that they have to be. -/
theorem evaluateApply_maintains {func : Expr} {args : ArgList} {scope : RecordId} {path : String}
    {location : Location} (hplaced : Expr.Placed S base s (.mk (.apply func args) location) scope)
    (hdeclared : S.declaredOnly → DeclaredAt carryOut func args scope path s) :
    (evaluateApply func args scope path location).Maintains S carryOut base s fun b t v =>
      v.Placed S b t := by
  refine .bind (Program.evaluate_maintains (hplaced.part List.mem_cons_self) _) ?_
  rintro b t v hst hle ⟨-, -, hv, hreply⟩
  refine .check fun f hf => ?_
  have hfun := Value.asFunction_placed hv hf
  dsimp only
  split
  · next harity =>
    have hpositional : ∀ arg ∈ args.positional.zip f.params, arg.1.Placed S b t scope :=
      fun arg harg => (hplaced.part (by
        simp only [Expr.kind, ExprKind.parts]
        exact List.mem_append_left _ (List.mem_cons_of_mem _
          (List.mem_map_of_mem (List.of_mem_zip harg).1)))).later hst hle
    have hnamed : ∀ arg ∈ args.named, arg.value.Placed S b t scope := fun arg harg =>
      (hplaced.part (List.mem_append_right _ (List.mem_map_of_mem harg))).later hst hle
    refine .bind (evaluateArguments_maintains path (by simp) hpositional) ?_
    rintro b' u positional htu hle' hvalues
    refine .bind (evaluateNamed_maintains path args.named (by simp) fun arg harg =>
      ⟨(hnamed arg harg).later htu hle', harg⟩) ?_
    rintro b'' w named huw hle'' hnamed'
    refine Function.apply_maintains (hfun.later (htu.trans huw hle') (Nat.le_trans hle' hle''))
      (fun v hv => (hvalues v hv).later huw hle'') (fun p hp => (hnamed' p hp).1)
      (fun hd p hp => ?_) path location
    obtain ⟨arg, harg, hname⟩ := List.mem_map.1 (hnamed' p hp).2
    exact hname ▸ hdeclared hd v t f hreply hf harity arg harg
  · exact .raise _

theorem evaluateItems_maintains {scope : RecordId} (path : String) (count : Nat)
    {found : Array CellId} (hfound : ∀ c ∈ found, s.CellPlaced S base c) {items : List Expr}
    (hitems : ∀ item ∈ items, item.Placed S base s scope) :
    (evaluateItems scope path count found items).Maintains S carryOut base s fun b t cells =>
      ∀ c ∈ cells, t.CellPlaced S b c := by
  induction items generalizing base s found count with
  | nil => exact .pure hfound
  | cons item rest ih =>
    rw [List.forall_mem_cons] at hitems
    refine .bind (Program.evaluate_maintains hitems.1 _) ?_
    rintro b t v hst hle ⟨-, -, hv, -⟩
    have hkept : ∀ c ∈ found, t.CellPlaced S b c := fun c hc => (hfound c hc).later hst hle
    have hrest : ∀ item ∈ rest, item.Placed S b t scope := fun item hitem =>
      (hitems.2 item hitem).later hst hle
    split
    · next a ha =>
      have hcells : ∀ c ∈ a.cells, t.CellPlaced S b c := by
        simpa only [Value.Placed, ha, Payload.Placed] using hv
      refine ih _ (fun c hc => ?_) hrest
      exact (Array.mem_append.1 hc).elim (hkept c) (hcells c)
    · refine .bind (Program.ready_maintains hv) ?_
      rintro b u cell htu - ⟨rfl, -, hcell, htask⟩
      refine ih _ (fun c hc => ?_) fun item hitem => (hrest item hitem).later htu (Nat.le_refl _)
      obtain hc | rfl := Array.mem_push.1 hc
      · exact (hkept c hc).later htu (Nat.le_refl _)
      · exact ⟨hcell, htask ▸ trivial⟩

/-- An element is put off as a call of the initializer, which remembers its own scope. -/
theorem suspendElements_maintains {f : Function} (hf : f.Placed S base s)
    (initLocation location : Location) (path : String) {found : Array CellId}
    (hfound : ∀ c ∈ found, s.CellPlaced S base c) (remaining : Nat) (index : Int64) :
    (suspendElements f initLocation location path found remaining index).Maintains S carryOut base s
      fun b t cells => ∀ c ∈ cells, t.CellPlaced S b c := by
  induction remaining generalizing base s found index with
  | zero => exact .pure hfound
  | succ remaining ih =>
    refine .bind (Program.suspended_maintains _ _ _) ?_
    rintro b t cell hst - ⟨rfl, -, hcell, htask⟩
    have hf' := hf.later hst (Nat.le_refl _)
    refine ih hf' (fun c hc => ?_) _
    obtain hc | rfl := Array.mem_push.1 hc
    · exact (hfound c hc).later hst (Nat.le_refl _)
    · exact ⟨hcell, htask ▸ ⟨hf', _, rfl⟩⟩

/-- The bounds are evaluated in the scope of the comprehension, and the elements are calls of its
    initializer. -/
theorem evaluateComprehension_maintains (ev : Evaluator) {first last init : Expr}
    {scope : RecordId} {location : Location}
    (hplaced : Expr.Placed S base s (.mk (.comprehension first last init) location) scope)
    (path : String) :
    (ev.evaluateComprehension first last init scope path location).Maintains S carryOut base s
      fun b t v => v.Placed S b t := by
  refine .bind (Program.evaluate_maintains (hplaced.part (.head _)) _) ?_
  rintro b t _ hst hle -
  refine .check fun low _ => ?_
  refine .bind (Program.evaluate_maintains ((hplaced.part (.tail _ (.head _))).later hst hle) _) ?_
  rintro b' u _ htu hle' -
  refine .check fun high _ => ?_
  have hinit := (hplaced.part (.tail _ (.tail _ (.head _)))).later (hst.trans htu hle)
    (Nat.le_trans hle hle')
  refine .bind (Program.evaluate_maintains hinit _) ?_
  rintro b'' v w - - ⟨-, -, hw, -⟩
  refine .check fun f hf => ?_
  dsimp only
  split
  · exact .raise _
  · split
    · exact .raise _
    · have hinitializer := Value.asFunction_placed hw hf
      exact .bind (suspendElements_maintains hinitializer _ _ _ (by simp) _ _)
        fun b x cells _ _ hcells => .pure hcells

theorem elementAt_maintains {a : LazyArray} (ha : ∀ c ∈ a.cells, s.CellPlaced S base c)
    (index : Int64) (location : Location) :
    (elementAt a index location).Maintains S carryOut base s fun b t v => v.Placed S b t := by
  unfold elementAt
  split
  · next cell hcell =>
    have hmem := LazyArray.mem_of_cellAt? hcell
    exact (Program.force_maintains (ha cell hmem)).imp fun _ _ _ _ _ h => h.2.2
  · exact .raise _

/-- A record literal makes a scope for its members. -/
theorem evaluateRecord_maintains {members : List Binding} {scope : RecordId} {location : Location}
    (hplaced : Expr.Placed S base s (.mk (.record members) location) scope) (path : String) :
    Program.Maintains S carryOut (do
      let record ← Program.newRecord (some scope)
      addMembers record path members
      return Value.record record location path) base s
      fun _ t v => v.Placed S t.records.size t := by
  obtain ⟨root, layers, hroot, hoccurs, hnested⟩ := hplaced
  refine .bind (Program.newRecord_opened (.literal members) hnested.lt) ?_
  rintro b t record hst - ⟨rfl, hopened, hempty⟩
  refine .bind (addMembers_maintains hnested.lt path (fun _ h => h) hopened) ?_
  rintro b u - htu - ⟨rfl, hfilled, hnames⟩
  have hnames (name : String) :
      name ∈ (u.record record).names ↔ name ∈ (Binder.literal members).names := by
    rw [hnames, hempty]
    simp [Binder.names]
  have hinstance : (Binder.literal members).Instance S u record scope :=
    hfilled.close (fun name => (hnames name).2) fun _ name => (hnames name).1
  have hsealed : b ≤ u.records.size := Nat.le_trans hfilled.unsealed (Nat.le_of_lt hfilled.lt)
  have houter := hnested.later (hst.trans htu (Nat.le_refl _)) hsealed
  exact .pure ((Store.Nested.inside hfilled.lt hoccurs hinstance houter).recordPlaced hroot)

/-- A function remembers the scope that it stands in. -/
theorem evaluateLambda_maintains {params : ParamList} {body : Expr} {scope : RecordId}
    {location : Location}
    (hplaced : Expr.Placed S base s (.mk (.lambda params body) location) scope) (path : String) :
    (suspendDefaults scope path [] params.named).Maintains S carryOut base s fun b t named =>
      Function.Placed S b t {
        params := params.positional.map (·.name)
        named
        body
        scope
        name := Function.nameAt path } := by
  refine (suspendDefaults_maintains path (fun _ h => h) (by simp)).imp ?_
  rintro b t named hst - ⟨rfl, hnamed, -, hcomplete⟩
  refine ⟨params, location, ⟨rfl, hnamed, fun d hd => ?_⟩, hplaced.later hst (Nat.le_refl _)⟩
  exact List.mem_map.1 (hcomplete d hd)

variable {ev : Evaluator} (hr : ev.registry.Places)

include hr

theorem evaluateUnary_maintains {op : UnaryOp} {operand : Expr} {scope : RecordId}
    {location : Location}
    (hplaced : Expr.Placed S base s (.mk (.unary op operand) location) scope) (path : String) :
    (ev.evaluateUnary op operand scope path location).Maintains S carryOut base s fun b t v =>
      v.Placed S b t := by
  have hoperand := hplaced.part (.head _)
  cases op with
  | not =>
    refine .bind (Program.evaluate_maintains hoperand _) fun b t v _ _ _ => ?_
    exact .check fun truth _ => .pure trivial
  | plus =>
    refine .bind (Program.evaluate_maintains hoperand _) ?_
    rintro b t v - - ⟨-, -, hv, -⟩
    split
    · exact .pure hv
    · exact .pure hv
    · exact .raise _
  | neg =>
    refine .bind (Program.evaluate_maintains hoperand _) ?_
    rintro b t v - - ⟨-, -, hv, -⟩
    split
    · exact .pure trivial
    · exact Operator.apply_maintains hr _ trivial hv
    · exact .raise _

theorem evaluateNew_maintains {typeName : Ident} {fields : Expr} {scope : RecordId}
    {location : Location}
    (hplaced : Expr.Placed S base s (.mk (.new typeName fields) location) scope) (path : String) :
    (ev.evaluateNew typeName fields scope path location).Maintains S carryOut base s fun b t v =>
      v.Placed S b t := by
  refine .check fun t ht => ?_
  refine .bind (Program.evaluate_maintains (hplaced.part (.head _)) _) ?_
  rintro b u v - - ⟨hb, -, hv, -⟩
  refine .check fun id hid => ?_
  obtain ⟨hlt, hmembers⟩ := Value.asRecord_placed hv hid id List.mem_cons_self
  exact Registry.instantiate_maintains (Registry.runtimeType_places hr ht) ⟨hb ▸ hlt, hmembers⟩
    location path

/-- Every form of expression evaluates its parts in the scope they stand in and gives a placed
    value. Calls have to pass declared arguments, if that is taken for granted. -/
theorem evaluateKind_maintains {kind : ExprKind} {location : Location} {scope : RecordId}
    {path : String} (hplaced : Expr.Placed S base s (.mk kind location) scope)
    (hdeclared : S.declaredOnly → ∀ func args, kind = .apply func args →
      DeclaredAt carryOut func args scope path s) :
    (ev.evaluateKind kind location scope path).Maintains S carryOut base s fun _ t v =>
      v.Placed S t.records.size t := by
  cases kind with
  | number x => exact .pure trivial
  | text x => exact .pure trivial
  | truth x => exact .pure trivial
  | new typeName fields => exact .closed (evaluateNew_maintains hr hplaced path)
  | conditional condition thenBranch elseBranch =>
    refine .closed (.bind (Program.evaluate_maintains (hplaced.part (.head _)) _) ?_)
    rintro b t v hst hle -
    refine .check fun truth _ => ?_
    have hbranch : (if truth then thenBranch else elseBranch).Placed S b t scope := by
      cases truth
      · exact (hplaced.part (.tail _ (.tail _ (.head _)))).later hst hle
      · exact (hplaced.part (.tail _ (.head _))).later hst hle
    exact (Program.evaluate_maintains hbranch _).imp fun _ _ _ _ _ h => h.2.2.1
  | lambda params body =>
    exact .closed (.bind (evaluateLambda_maintains hplaced path) fun b t named _ _ hf => .pure hf)
  | apply func args =>
    exact .closed (evaluateApply_maintains hplaced fun hd => hdeclared hd func args rfl)
  | record members => exact evaluateRecord_maintains hplaced path
  | var name =>
    obtain ⟨root, layers, hroot, -, hnested⟩ := hplaced
    exact .closed (Program.lookup_maintains (hnested.recordPlaced hroot) name location)
  | member base member =>
    refine .closed (.bind (Program.evaluate_maintains (hplaced.part (.head _)) _) ?_)
    rintro b t v - - ⟨-, -, hv, -⟩
    exact Program.memberOf_maintains hv _ _
  | array items =>
    refine .closed (.bind (evaluateItems_maintains path 0 (by simp) fun item hitem => ?_) ?_)
    · exact hplaced.part (List.mem_map_of_mem hitem)
    · exact fun b t cells _ _ hcells => .pure hcells
  | comprehension first last init =>
    exact .closed (ev.evaluateComprehension_maintains hplaced path)
  | index base i =>
    refine .closed (.bind (Program.evaluate_maintains (hplaced.part (.head _)) _) ?_)
    rintro b t v hst hle ⟨-, -, hv, -⟩
    refine .check fun a ha => ?_
    have hindex := (hplaced.part (.tail _ (.head _))).later hst hle
    refine .bind (Program.evaluate_maintains hindex _) ?_
    rintro b' u w htu hle' -
    refine .check fun i _ => ?_
    exact elementAt_maintains (fun c hc => (Value.asArray_placed hv ha c hc).later htu hle') i _
  | unary op operand => exact .closed (evaluateUnary_maintains hr hplaced path)
  | binary op left right =>
    refine .closed (.bind (Program.evaluate_maintains (hplaced.part (.head _)) _) ?_)
    rintro b t l hst hle ⟨-, -, hl, -⟩
    have hright := (hplaced.part (.tail _ (.head _))).later hst hle
    refine .bind (Program.evaluate_maintains hright _) ?_
    rintro b' u r htu hle' ⟨-, -, hr', -⟩
    exact Operator.apply_maintains hr _ (hl.later htu hle') hr'

end Evaluator

end NetDesc
