import NetDesc.Evaluator
import NetDesc.Proofs.Operators.Dispatch
import NetDesc.Proofs.Program.Members

namespace NetDesc

/-- The type makes good values, and a node that it makes has no name yet. -/
def RuntimeType.Sound (t : RuntimeType) : Prop :=
  ∀ (fields : RecordId) (location : Location) (path : String) (base : Nat) (s : Store),
    fields < s.records.size →
    (t.construct fields location path).Ensures base s fun _ u v =>
      v.Valid u ∧ ∀ id, v.payload = .object (.node id) → (u.node id).name = ""

namespace Registry

/-- All types of the registry make good values. -/
def Sound (r : Registry) : Prop :=
  ∀ p ∈ r.types, p.2.Sound

/-- Nothing is asked of types where there are none. -/
theorem sound_of_types_eq_nil {r : Registry} (hr : r.types = []) : r.Sound := by
  intro p hp
  rw [hr] at hp
  cases hp

variable {base : Nat} {s : Store}

theorem runtimeType_mem {r : Registry} {name : String} {location : Location} {t : RuntimeType}
    (ht : r.runtimeType name location = .ok t) : (name, t) ∈ r.types := by
  unfold runtimeType at ht
  split at ht
  · next found hfound =>
    cases ht
    obtain ⟨l, l', heq, -⟩ := List.lookup_eq_some_iff.1 hfound
    simp [heq]
  · cases ht

theorem runtimeType_sound {r : Registry} (hr : r.Sound) {name : String} {location : Location}
    {t : RuntimeType} (ht : r.runtimeType name location = .ok t) : t.Sound :=
  hr (name, t) (runtimeType_mem ht)

/-- What a type makes may be named, since a node that has just been made has no name. -/
theorem instantiate_givesValue {t : RuntimeType} (ht : t.Sound) {fields : RecordId}
    (hfields : fields < s.records.size) (location : Location) (path : String) :
    (instantiate t fields location path).GivesValue base s := by
  refine .bind (ht fields location path base s hfields) ?_
  rintro b u v - - - ⟨hv, hname⟩
  split
  · next o ho =>
    refine .bind (P := fun _ _ _ => True) (.step (fun _ => ?_) trivial) ?_
    · cases o with
      | node id => exact hname id ho
      | network id => trivial
      | action id => trivial
    · exact fun _ _ _ _ hgrows _ _ => .pure (hv.mono hgrows.covers)
  · exact .pure hv

/-- A record with the fields is all that a type needs to make a good value, or to fail. -/
theorem construct_givesValue {r : Registry} (hr : r.Sound) (name : String) {fields : RecordId}
    (hfields : fields < s.records.size) (location : Location) (path : String) :
    (r.construct name fields location path).GivesValue base s :=
  .check fun _ ht => instantiate_givesValue (runtimeType_sound hr ht) hfields location path

end Registry

namespace Operator

variable {base : Nat} {s : Store}

theorem orInvalid_givesValue (site : Site) (left right : Value) {result : Option Value}
    (hresult : ∀ v, result = some v → v.Valid s) :
    (orInvalid site left right result).GivesValue base s := by
  cases result with
  | none => exact .raise _
  | some v => exact .pure (hresult v rfl)

/-- Operators compute scalars, which refer to nothing. -/
theorem onNumbers?_valid {site : Site} {x y : Float} {v : Value}
    (hv : onNumbers? site x y = some v) : v.Valid s := by
  simp only [onNumbers?, Option.orElse_eq_orElse, Option.orElse_eq_or, Option.or_eq_some_iff,
    Option.map_eq_some_iff] at hv
  rcases hv with ⟨z, -, rfl⟩ | ⟨-, z, -, rfl⟩ <;> trivial

theorem onTexts?_valid {site : Site} {x y : String} {v : Value}
    (hv : onTexts? site x y = some v) : v.Valid s := by
  unfold onTexts? at hv
  split at hv
  · cases hv
    trivial
  · obtain ⟨z, -, rfl⟩ := Option.map_eq_some_iff.1 hv
    trivial

theorem onTruths?_valid {site : Site} {a b : Bool} {v : Value}
    (hv : onTruths? site a b = some v) : v.Valid s := by
  obtain ⟨z, -, rfl⟩ := Option.map_eq_some_iff.1 hv
  trivial

/-- The record with the fields of a node that an operator makes. Its inputs are the operands,
    good values themselves. -/
theorem graphFields_ensures (site : Site) (className : String) {left right : Value}
    (hleft : left.Valid s) (hright : right.Valid s) :
    (graphFields site className left right).Ensures base s fun _ t fields =>
      fields < t.records.size := by
  have hparent : ∀ p, (none : Option RecordId) = some p → p < s.records.size := by
    rintro p ⟨⟩
  refine .bind (Program.newRecord_ensures hparent) ?_
  rintro b t fields - hst - ⟨hopen, hfields⟩
  refine .bind (Program.addValue_ensures "class" (v := site.textValue className) hopen trivial) ?_
  rintro b u - - htu - rfl
  have hsu := hst.covers.trans htu.covers
  refine .bind (Program.ready_ensures (hleft.mono hsu)) ?_
  rintro b v first - huv - ⟨rfl, hfirst, -⟩
  have hsv := hsu.trans huv.covers
  refine .bind (Program.ready_ensures (hright.mono hsv)) ?_
  rintro b w second - hvw - ⟨rfl, hsecond, -⟩
  have hinputs : ∀ c ∈ #[first, second], c < w.cells.size := by
    intro c hc
    have hc : c = first ∨ c = second := by simpa using hc
    rcases hc with rfl | rfl
    · exact Nat.lt_of_lt_of_le hfirst hvw.covers.cells
    · exact hsecond
  refine .bind (Program.addValue_ensures "inputs" hopen hinputs) ?_
  rintro b x - - hwx - rfl
  have htx := ((htu.covers.trans huv.covers).trans hvw.covers).trans hwx.covers
  exact .pure (Nat.lt_of_lt_of_le hfields htx.records)

theorem onObjects_givesValue {r : Registry} (hr : r.Sound) (site : Site) {left right : Value}
    (hleft : left.Valid s) (hright : right.Valid s) :
    (onObjects r site left right).GivesValue base s := by
  refine onObjects_elim (P := (·.GivesValue base s)) ?_ fun _ _ => .raise _
  intro className first second hboth
  obtain ⟨hfirst, hsecond⟩ := hboth (·.Valid s) hleft hright
  exact .bind (graphFields_ensures site className hfirst hsecond) fun _ _ _ _ _ _ hfields =>
    Registry.construct_givesValue hr _ hfields _ _

/-- An operator computes a scalar, or makes a node of its operands. Which of the two it is makes
    no difference to its callers. -/
theorem apply_givesValue {r : Registry} (hr : r.Sound) (site : Site) {left right : Value}
    (hleft : left.Valid s) (hright : right.Valid s) :
    (apply r site left right).GivesValue base s := by
  refine apply_elim (P := (·.GivesValue base s)) ?numbers ?texts ?truths ?objects (.raise _)
  case numbers =>
    exact fun _ _ => orInvalid_givesValue site left right fun v hv => onNumbers?_valid hv
  case texts =>
    exact fun _ _ => orInvalid_givesValue site left right fun v hv => onTexts?_valid hv
  case truths =>
    exact fun _ _ => orInvalid_givesValue site left right fun v hv => onTruths?_valid hv
  case objects => exact onObjects_givesValue hr site hleft hright

end Operator

namespace Evaluator

variable {base : Nat} {s : Store}

theorem addMembers_ensures {scope : RecordId} (hopen : base ≤ scope)
    (hscope : scope < s.records.size) (path : String) (members : List Binding) :
    (addMembers scope path members).Ensures base s fun b _ _ => b = base := by
  induction members generalizing s with
  | nil => exact .pure rfl
  | cons binding rest ih =>
    refine .bind (Program.readRecord_ensures scope) ?_
    rintro b t r - - - ⟨rfl, rfl, rfl⟩
    split
    · exact .raise _
    · refine .bind (Program.suspend_ensures _ hscope _) ?_
      rintro b u cell - htu - ⟨rfl, hcell, -⟩
      refine .bind (Program.addMember_ensures _ hopen hcell) ?_
      rintro b v - - huv - rfl
      exact ih (Nat.lt_of_lt_of_le hscope (htu.covers.trans huv.covers).records)

theorem mem_putDefault {name : String} {cell : CellId} {found : List (String × CellId)}
    {p : String × CellId} (hp : p ∈ putDefault name cell found) : p = (name, cell) ∨ p ∈ found := by
  induction found with
  | nil => simpa [putDefault] using hp
  | cons q found ih =>
    unfold putDefault at hp
    split at hp
    · exact (List.mem_cons.1 hp).imp_right fun h => List.mem_cons_of_mem _ h
    · rcases List.mem_cons.1 hp with rfl | hp
      · exact .inr List.mem_cons_self
      · exact (ih hp).imp_right fun h => List.mem_cons_of_mem _ h

theorem suspendDefaults_ensures {scope : RecordId} (hscope : scope < s.records.size)
    (path : String) {found : List (String × CellId)} (hfound : ∀ p ∈ found, p.2 < s.cells.size)
    (named : List Binding) :
    (suspendDefaults scope path found named).Ensures base s fun _ t defaults =>
      ∀ p ∈ defaults, p.2 < t.cells.size := by
  induction named generalizing base s found with
  | nil => exact .pure hfound
  | cons binding rest ih =>
    refine .bind (Program.suspend_ensures _ hscope _) ?_
    rintro b t cell - hst - ⟨rfl, hcell, -⟩
    refine ih (Nat.lt_of_lt_of_le hscope hst.covers.records) fun p hp => ?_
    rcases mem_putDefault hp with rfl | hp
    · exact hcell
    · exact Nat.lt_of_lt_of_le (hfound p hp) hst.covers.cells

theorem evaluateArguments_ensures {scope : RecordId} (hscope : scope < s.records.size)
    (path : String) {found : Array Value} (hfound : ∀ v ∈ found, v.Valid s)
    (args : List (Expr × String)) :
    (evaluateArguments scope path found args).Ensures base s fun _ t values =>
      ∀ v ∈ values, v.Valid t := by
  induction args generalizing base s found with
  | nil => exact .pure fun v hv => hfound v (Array.mem_toList_iff.1 hv)
  | cons arg rest ih =>
    refine .bind (Program.evaluatePart_givesValue _ hscope _ _) ?_
    intro b t v _ hst _ hv
    refine ih (Nat.lt_of_lt_of_le hscope hst.covers.records) fun w hw => ?_
    rcases Array.mem_push.1 hw with hw | rfl
    · exact (hfound w hw).mono hst.covers
    · exact hv

theorem evaluateNamed_ensures {scope : RecordId} (hscope : scope < s.records.size)
    (path : String) {found : Array (String × Value)} (hfound : ∀ p ∈ found, p.2.Valid s)
    (named : List Binding) :
    (evaluateNamed scope path found named).Ensures base s fun _ t values =>
      ∀ p ∈ values, p.2.Valid t := by
  induction named generalizing base s found with
  | nil => exact .pure fun p hp => hfound p (Array.mem_toList_iff.1 hp)
  | cons binding rest ih =>
    refine .bind (Program.evaluatePart_givesValue _ hscope _ _) ?_
    intro b t v _ hst _ hv
    split
    · exact .raise _
    · refine ih (Nat.lt_of_lt_of_le hscope hst.covers.records) fun p hp => ?_
      rcases Array.mem_push.1 hp with hp | rfl
      · exact (hfound p hp).mono hst.covers
      · exact hv

/-- A call evaluates the function and the arguments before anything is bound, so the function and
    all that it is given are good by the time the record of parameters is made. -/
theorem evaluateApply_givesValue (func : Expr) (args : ArgList) {scope : RecordId}
    (hscope : scope < s.records.size) (path : String) (location : Location) :
    (evaluateApply func args scope path location).GivesValue base s := by
  refine .bind (Program.evaluatePart_givesValue func hscope path _) ?_
  intro b t v _ hst _ hv
  refine .check fun f hf => ?_
  have hfun := Value.asFunction_valid hv hf
  dsimp only
  split
  · have ht := Nat.lt_of_lt_of_le hscope hst.covers.records
    refine .bind (evaluateArguments_ensures ht path (by simp) _) ?_
    intro b u positional _ htu _ hpositional
    have hu := Nat.lt_of_lt_of_le ht htu.covers.records
    refine .bind (evaluateNamed_ensures hu path (by simp) _) ?_
    intro b w named _ huw _ hnamed
    exact Function.apply_givesValue (hfun.mono (htu.covers.trans huw.covers))
      (fun v hv => (hpositional v hv).mono huw.covers) hnamed path location
  · exact .raise _

theorem evaluateItems_ensures {scope : RecordId} (hscope : scope < s.records.size)
    (path : String) (count : Nat) {found : Array CellId} (hfound : ∀ c ∈ found, c < s.cells.size)
    (items : List Expr) :
    (evaluateItems scope path count found items).Ensures base s fun _ t cells =>
      ∀ c ∈ cells, c < t.cells.size := by
  induction items generalizing base s found count with
  | nil => exact .pure hfound
  | cons item rest ih =>
    refine .bind (Program.evaluatePart_givesValue item hscope path _) ?_
    intro b t v _ hst _ hv
    have ht := Nat.lt_of_lt_of_le hscope hst.covers.records
    have hkept : ∀ c ∈ found, c < t.cells.size := fun c hc =>
      Nat.lt_of_lt_of_le (hfound c hc) hst.covers.cells
    split
    · next a ha =>
      have hcells : ∀ c ∈ a.cells, c < t.cells.size := by
        simpa [Value.Valid, ha, Payload.Valid] using hv
      refine ih ht _ fun c hc => ?_
      rcases Array.mem_append.1 hc with hc | hc
      · exact hkept c hc
      · exact hcells c hc
    · refine .bind (Program.ready_ensures hv) ?_
      rintro b u cell - htu - ⟨rfl, hcell, -⟩
      refine ih (Nat.lt_of_lt_of_le ht htu.covers.records) _ fun c hc => ?_
      rcases Array.mem_push.1 hc with hc | rfl
      · exact Nat.lt_of_lt_of_le (hkept c hc) htu.covers.cells
      · exact hcell

/-- The elements of a comprehension are cells that are made one after another and stay there
    while the rest are made. -/
theorem suspendElements_ensures {f : Function} (hf : f.Valid s) (initLocation location : Location)
    (path : String) {found : Array CellId} (hfound : ∀ c ∈ found, c < s.cells.size)
    (remaining : Nat) (index : Int64) :
    (suspendElements f initLocation location path found remaining index).Ensures base s
      fun _ t cells => ∀ c ∈ cells, c < t.cells.size := by
  induction remaining generalizing base s found index with
  | zero => exact .pure hfound
  | succ remaining ih =>
    refine .bind (Program.newCell_ensures (Cell.suspended_valid _ _ ?_ ?_)
      (Cell.suspended_fresh _ _ _)) ?_
    · exact ⟨hf, trivial⟩
    · rintro v ⟨⟩
    · rintro b t cell - hst - ⟨rfl, hcell, -⟩
      refine ih (hf.mono hst.covers) (fun c hc => ?_) _
      rcases Array.mem_push.1 hc with hc | rfl
      · exact Nat.lt_of_lt_of_le (hfound c hc) hst.covers.cells
      · exact hcell

theorem evaluateComprehension_givesValue (ev : Evaluator) (first last init : Expr)
    {scope : RecordId} (hscope : scope < s.records.size) (path : String) (location : Location) :
    (ev.evaluateComprehension first last init scope path location).GivesValue base s := by
  refine .bind (Program.evaluatePart_givesValue first hscope path _) ?_
  intro b t _ _ hst _ _
  refine .check fun low _ => ?_
  have ht := Nat.lt_of_lt_of_le hscope hst.covers.records
  refine .bind (Program.evaluatePart_givesValue last ht path _) ?_
  intro b u _ _ htu _ _
  refine .check fun high _ => ?_
  have hu := Nat.lt_of_lt_of_le ht htu.covers.records
  refine .bind (Program.evaluatePart_givesValue init hu path _) ?_
  intro b v w _ _ _ hw
  refine .check fun f hf => ?_
  dsimp only
  split
  · exact .raise _
  · split
    · exact .raise _
    · refine .bind (suspendElements_ensures (Value.asFunction_valid hw hf) _ _ _ (by simp) _ _) ?_
      exact fun b x cells _ _ _ hcells => .pure hcells

theorem elementAt_givesValue {a : LazyArray} (ha : ∀ c ∈ a.cells, c < s.cells.size)
    (index : Int64) (location : Location) : (elementAt a index location).GivesValue base s := by
  unfold elementAt
  split
  · next cell hcell =>
    have hmem := LazyArray.mem_of_cellAt? hcell
    exact (Program.force_ensures (ha cell hmem)).imp fun _ _ _ _ _ _ h => h.2.2.1
  · exact .raise _

variable {ev : Evaluator} (hr : ev.registry.Sound)

include hr

theorem evaluateUnary_givesValue (op : UnaryOp) (operand : Expr) {scope : RecordId}
    (hscope : scope < s.records.size) (path : String) (location : Location) :
    (ev.evaluateUnary op operand scope path location).GivesValue base s := by
  cases op with
  | not =>
    refine .bind (Program.evaluatePart_givesValue operand hscope path _) fun b t v _ _ _ _ => ?_
    exact .check fun truth _ => .pure trivial
  | plus =>
    refine .bind (Program.evaluatePart_givesValue operand hscope path _) fun b t v _ _ _ hv => ?_
    split
    · exact .pure hv
    · exact .pure hv
    · exact .raise _
  | neg =>
    refine .bind (Program.evaluatePart_givesValue operand hscope path _) fun b t v _ _ _ hv => ?_
    split
    · exact .pure trivial
    · exact Operator.apply_givesValue hr _ trivial hv
    · exact .raise _

theorem evaluateNew_givesValue (typeName : Ident) (fields : Expr) {scope : RecordId}
    (hscope : scope < s.records.size) (path : String) (location : Location) :
    (ev.evaluateNew typeName fields scope path location).GivesValue base s := by
  refine .check fun t ht => ?_
  refine .bind (Program.evaluate_givesValue fields hscope _) fun b u v _ _ _ hv => ?_
  refine .check fun id hid => ?_
  exact Registry.instantiate_givesValue (Registry.runtimeType_sound hr ht)
    (Value.asRecord_valid hv hid) location path

/-- Every form of expression gives a good value in a scope that is there, as long as the calls it
    makes do. It is enough to look at what each form does by itself, as calls are known by what
    they ensure. -/
theorem evaluateKind_givesValue (kind : ExprKind) (location : Location) {scope : RecordId}
    (hscope : scope < s.records.size) (path : String) :
    (ev.evaluateKind kind location scope path).GivesValue base s := by
  cases kind with
  | number x => exact .pure trivial
  | text x => exact .pure trivial
  | truth x => exact .pure trivial
  | new typeName fields => exact evaluateNew_givesValue hr typeName fields hscope path location
  | conditional condition thenBranch elseBranch =>
    refine .bind (Program.evaluatePart_givesValue condition hscope path _) ?_
    intro b t v _ hst _ _
    refine .check fun truth _ => ?_
    exact Program.evaluatePart_givesValue _ (Nat.lt_of_lt_of_le hscope hst.covers.records) path _
  | lambda params body =>
    refine .bind (suspendDefaults_ensures hscope path (by simp) _) ?_
    intro b t named _ hst _ hnamed
    exact .pure ⟨Nat.lt_of_lt_of_le hscope hst.covers.records, hnamed⟩
  | apply func args => exact evaluateApply_givesValue func args hscope path location
  | record members =>
    have hparent : ∀ p, some scope = some p → p < s.records.size := by
      rintro p ⟨⟩
      exact hscope
    refine .bind (Program.newRecord_ensures hparent) ?_
    rintro b t record - - - ⟨hopen, hrecord⟩
    refine .bind (addMembers_ensures hopen hrecord path members) ?_
    rintro b u - - htu - -
    exact .pure (Nat.lt_of_lt_of_le hrecord htu.covers.records)
  | var name => exact Program.lookup_givesValue scope name location
  | member base member =>
    refine .bind (Program.evaluatePart_givesValue base hscope path _) fun b t v _ _ _ hv => ?_
    exact Program.memberOf_givesValue hv _ _
  | array items =>
    refine .bind (evaluateItems_ensures hscope path 0 (by simp) items) ?_
    exact fun b t cells _ _ _ hcells => .pure hcells
  | comprehension first last init =>
    exact ev.evaluateComprehension_givesValue first last init hscope path location
  | index base index =>
    refine .bind (Program.evaluatePart_givesValue base hscope path _) fun b t v _ hst _ hv => ?_
    refine .check fun a ha => ?_
    refine .bind (Program.evaluatePart_givesValue index
      (Nat.lt_of_lt_of_le hscope hst.covers.records) path _) fun b u w _ htu _ _ => ?_
    refine .check fun i _ => ?_
    refine elementAt_givesValue (fun c hc => ?_) i index.location
    exact Nat.lt_of_lt_of_le (Value.asArray_valid hv ha c hc) htu.covers.cells
  | unary op operand => exact evaluateUnary_givesValue hr op operand hscope path location
  | binary op left right =>
    refine .bind (Program.evaluatePart_givesValue left hscope path _) ?_
    intro b t l _ hst _ hl
    refine .bind (Program.evaluatePart_givesValue right
      (Nat.lt_of_lt_of_le hscope hst.covers.records) path _) fun b u r _ htu _ hr' => ?_
    exact Operator.apply_givesValue hr _ (hl.mono htu.covers) hr'

/-- Every computation that a cell puts off gives a good value, given that the runtime types of
    the registry do. -/
theorem taskProgram_givesValue {task : Task} (htask : task.Valid s) :
    (ev.taskProgram task).GivesValue base s := by
  cases task with
  | evaluate e scope path => exact evaluateKind_givesValue hr e.kind e.location htask path
  | element initializer index path location =>
    refine Function.apply_givesValue htask.1 (fun v hv => ?_) (by simp) path location
    rw [List.mem_singleton.1 hv]
    exact htask.2
  | constant v => exact .pure htask

end Evaluator

end NetDesc
