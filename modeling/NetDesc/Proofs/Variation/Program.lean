import NetDesc.Members
import NetDesc.Proofs.Variation.Relation

namespace NetDesc

variable (V : Variation)

namespace Call

/-- Calls for what varies: computations and values that do, and the very same cells and objects. -/
inductive Varies : Call → Call → Prop
  | perform {task task' : Task} (h : task.Varies V task') : Varies (.perform task) (.perform task')
  | force (cell : CellId) : Varies (.force cell) (.force cell)
  | render (spec : FormatSpec) {v w : Value} (h : v.Varies V w) :
      Varies (.render spec v) (.render spec w)
  | tie (work visited : List Object) : Varies (.tie work visited) (.tie work visited)

/-- Answers to two calls that vary. What has been computed was not idle. -/
def RepliesVary : (c c' : Call) → c.Reply → c'.Reply → Prop
  | perform task, perform _, v, w => ¬task.Idle V ∧ Value.Varies V v w
  | force _, force _, v, w => Value.Varies V v w
  | render _ _, render _ _, text, text' => Eq (α := String) text text'
  | tie _ _, tie _ _, objects, objects' => Eq (α := List Object) objects objects'
  | _, _, _, _ => False

end Call

namespace Program

variable {α β γ δ : Type}

/-- The programs do the same on stores that vary, and go on in the same way whenever the answers
    to their calls vary. Their results are related by `Q`. Errors are raised with the same cause. -/
inductive Varies (Q : α → β → Prop) : Program α → Program β → Prop
  | done {a : α} {b : β} (h : Q a b) : Varies Q (.done a) (.done b)
  | raise (cause : Cause) {l l' : Location} (h : V.location l l') :
      Varies Q (.raise { cause, location := l }) (.raise { cause, location := l' })
  | access {a a' : Access} {next : a.Reply → Program α} {next' : a'.Reply → Program β}
      (hstore : ∀ s t, s.Varies V t → (a.perform s).2.Varies V (a'.perform t).2)
      (hnext : ∀ s t, s.Varies V t →
        Varies Q (next (a.perform s).1) (next' (a'.perform t).1)) :
      Varies Q (.access a next) (.access a' next')
  | call {c c' : Call} (hc : c.Varies V c') {next : c.Reply → Program α}
      {next' : c'.Reply → Program β}
      (hnext : ∀ r r', c.RepliesVary V c' r r' → Varies Q (next r) (next' r')) :
      Varies Q (.call c next) (.call c' next')

/-- Both checks pass with related results, or fail with the same cause. -/
inductive CheckVaries (Q : α → β → Prop) : Except EvalError α → Except EvalError β → Prop
  | ok {a : α} {b : β} (h : Q a b) : CheckVaries Q (.ok a) (.ok b)
  | error (cause : Cause) {l l' : Location} (h : V.location l l') :
      CheckVaries Q (.error { cause, location := l }) (.error { cause, location := l' })

/-- Both programs give values, which vary. -/
abbrev VariesValue (p q : Program Value) : Prop :=
  p.Varies V (Value.Varies V) q

variable {V} {Q : α → β → Prop} {R : γ → δ → Prop}

namespace CheckVaries

variable {x : Except EvalError α} {y : Except EvalError β} {k : α → Except EvalError γ}
  {l : β → Except EvalError δ}

theorem bind (hxy : CheckVaries V Q x y) (hkl : ∀ a b, Q a b → CheckVaries V R (k a) (l b)) :
    CheckVaries V R (x >>= k) (y >>= l) := by
  cases hxy with
  | ok h => exact hkl _ _ h
  | error cause h => exact .error cause h

theorem bind_eq {x y : Except EvalError α} {k : α → Except EvalError γ}
    {l : α → Except EvalError δ} (hxy : CheckVaries V Eq x y)
    (hkl : ∀ a, CheckVaries V R (k a) (l a)) : CheckVaries V R (x >>= k) (y >>= l) :=
  hxy.bind fun a _ h => h ▸ hkl a

end CheckVaries

namespace Varies

variable {p : Program α} {q : Program β} {k : α → Program γ} {l : β → Program δ}

theorem pure {a : α} {b : β} (h : Q a b) :
    (Pure.pure a : Program α).Varies V Q (Pure.pure b) :=
  .done h

theorem imp {Q' : α → β → Prop} (hpq : p.Varies V Q q) (h : ∀ a b, Q a b → Q' a b) :
    p.Varies V Q' q := by
  induction hpq with
  | done hab => exact .done (h _ _ hab)
  | raise cause hl => exact .raise cause hl
  | access hstore _ ih => exact .access hstore ih
  | call hc _ ih => exact .call hc ih

/-- Programs that vary go on with programs that vary, given results that are related. Every
    sequence of steps is put together like this. -/
theorem bind (hpq : p.Varies V Q q) (hkl : ∀ a b, Q a b → (k a).Varies V R (l b)) :
    (p >>= k).Varies V R (q >>= l) := by
  induction hpq with
  | done h => exact hkl _ _ h
  | raise cause h => exact .raise cause h
  | access hstore _ ih => exact .access hstore ih
  | call hc _ ih => exact .call hc ih

theorem bind_eq {p q : Program α} {k : α → Program γ} {l : α → Program δ}
    (hpq : p.Varies V Eq q) (hkl : ∀ a, (k a).Varies V R (l a)) :
    (p >>= k).Varies V R (q >>= l) :=
  hpq.bind fun a _ h => h ▸ hkl a

/-- Both programs take the same branch. -/
theorem ite {c d : Prop} [Decidable c] [Decidable d] (hcd : c ↔ d) {p p' : Program α}
    {q q' : Program β} (hpq : p.Varies V Q q) (hpq' : p'.Varies V Q q') :
    (if c then p else p').Varies V Q (if d then q else q') := by
  by_cases hc : c
  · rwa [if_pos hc, if_pos (hcd.1 hc)]
  · rwa [if_neg hc, if_neg (mt hcd.2 hc)]

theorem ofExcept {x : Except EvalError α} {y : Except EvalError β} (hxy : CheckVaries V Q x y) :
    (Program.ofExcept x).Varies V Q (Program.ofExcept y) := by
  cases hxy with
  | ok h => exact .done h
  | error cause h => exact .raise cause h

/-- Checks come before what the programs do with what passes them. -/
theorem check {x : Except EvalError α} {y : Except EvalError β} (hxy : CheckVaries V Q x y)
    (hkl : ∀ a b, Q a b → (k a).Varies V R (l b)) :
    (Program.ofExcept x >>= k).Varies V R (Program.ofExcept y >>= l) :=
  (ofExcept hxy).bind hkl

theorem check_eq {x y : Except EvalError α} {k : α → Program γ} {l : α → Program δ}
    (hxy : CheckVaries V Eq x y) (hkl : ∀ a, (k a).Varies V R (l a)) :
    (Program.ofExcept x >>= k).Varies V R (Program.ofExcept y >>= l) :=
  (ofExcept hxy).bind_eq hkl

end Varies

section Steps

/-- Accesses vary if, on stores that vary, their replies are related and the stores vary
    afterwards. -/
theorem step_varies (a a' : Access) {Q : a.Reply → a'.Reply → Prop}
    (h : ∀ s t, s.Varies V t →
      Q (a.perform s).1 (a'.perform t).1 ∧ (a.perform s).2.Varies V (a'.perform t).2) :
    (step a).Varies V Q (step a') :=
  .access (fun s t hst => (h s t hst).2) fun s t hst => .done (h s t hst).1

theorem readCell_varies (id : CellId) : (readCell id).Varies V (Cell.Varies V) (readCell id) :=
  step_varies (.readCell id) (.readCell id) fun _ _ h => ⟨h.cell id, h⟩

theorem newCell_varies {c d : Cell} (hcd : c.Varies V d) :
    (newCell c).Varies V Eq (newCell d) :=
  step_varies (.newCell c) (.newCell d) fun _ _ h => ⟨h.cells, h.newCell hcd⟩

theorem readRecord_varies (id : RecordId) :
    (readRecord id).Varies V (Record.Varies V) (readRecord id) :=
  step_varies (.readRecord id) (.readRecord id) fun _ _ h => ⟨h.record id, h⟩

/-- Names are found in the same records on both sides, and lead to the same cells. -/
theorem find_varies (scope : RecordId) (name : String) :
    (find scope name).Varies V (fun m n => m.map (·.cell) = n.map (·.cell)) (find scope name) :=
  step_varies (.find scope name) (.find scope name) fun _ _ h => ⟨h.find?_cell_eq scope name, h⟩

theorem newRecord_varies (parent : Option RecordId) :
    (newRecord parent).Varies V Eq (newRecord parent) := by
  refine step_varies (.newRecord parent) (.newRecord parent) fun s t h => ?_
  refine ⟨h.records, h.newRecord ⟨.nil, ?_⟩⟩
  cases parent with
  | none => rfl
  | some parent => exact congrArg (parent :: ·) (h.record parent).enclosing

theorem addMember_varies (record : RecordId) (name : String) {m n : Member} (h : m.Varies V n) :
    (addMember record name m).Varies V Eq (addMember record name n) :=
  step_varies (.addMember record name m) (.addMember record name n) fun _ _ hst =>
    ⟨rfl, hst.addMember record name h⟩

theorem readNode_varies (id : NodeId) : (readNode id).Varies V Eq (readNode id) :=
  step_varies (.readNode id) (.readNode id) fun _ _ h => ⟨h.node_eq id, h⟩

theorem newNode_varies (n : Node) : (newNode n).Varies V Eq (newNode n) :=
  step_varies (.newNode n) (.newNode n) fun _ _ h =>
    ⟨congrArg Array.size h.nodes, { h with nodes := congrArg (·.push n) h.nodes }⟩

theorem tieInput_varies (node input : NodeId) :
    (tieInput node input).Varies V Eq (tieInput node input) :=
  step_varies (.tieInput node input) (.tieInput node input) fun _ _ h => ⟨rfl, h.modifyNode node _⟩

theorem readNetwork_varies (id : NetworkId) :
    (readNetwork id).Varies V (Network.Varies V) (readNetwork id) :=
  step_varies (.readNetwork id) (.readNetwork id) fun _ _ h => ⟨h.network id, h⟩

theorem newNetwork_varies {n n' : Network} (hn : n.Varies V n') :
    (newNetwork n).Varies V Eq (newNetwork n') :=
  step_varies (.newNetwork n) (.newNetwork n') fun _ _ h => ⟨h.networks, h.newNetwork hn⟩

theorem newAction_varies (a : Action) : (newAction a).Varies V Eq (newAction a) :=
  step_varies (.newAction a) (.newAction a) fun _ _ h =>
    ⟨congrArg Array.size h.actions, { h with actions := congrArg (·.push a) h.actions }⟩

theorem children_varies (o : Object) : (children o).Varies V Eq (children o) :=
  step_varies (.children o) (.children o) fun _ _ h => ⟨h.children_eq o, h⟩

theorem describe_varies (o : Object) : (describe o).Varies V Eq (describe o) :=
  step_varies (.describe o) (.describe o) fun _ _ h => ⟨h.describe_eq o, h⟩

theorem rename_varies (o : Object) (name : String) :
    (rename o name).Varies V Eq (rename o name) := by
  refine step_varies (.rename o name) (.rename o name) fun _ _ h => ?_
  cases o with
  | node id => exact ⟨rfl, h.modifyNode id _⟩
  | network id => exact ⟨rfl, h⟩
  | action id => exact ⟨rfl, h.modifyAction id _⟩

theorem print_varies (line : String) : (print line).Varies V Eq (print line) :=
  step_varies (.print line) (.print line) fun _ _ h =>
    ⟨rfl, { h with printed := congrArg (·.push line) h.printed }⟩

/-- An expression that has a value was not idle. -/
theorem evaluate_awake {e e' : Expr} (he : V.expr e e') (scope : RecordId) (path : String) :
    (evaluate e scope path).Varies V (fun v w => ¬V.idle e.location ∧ v.Varies V w)
      (evaluate e' scope path) :=
  .call (.perform (.evaluate he scope path)) fun _ _ h => .done h

theorem evaluate_varies {e e' : Expr} (he : V.expr e e') (scope : RecordId) (path : String) :
    (evaluate e scope path).VariesValue V (evaluate e' scope path) :=
  (evaluate_awake he scope path).imp fun _ _ => And.right

theorem evaluatePart_awake {e e' : Expr} (he : V.expr e e') (scope : RecordId)
    (path id : String) :
    (evaluatePart e scope path id).Varies V (fun v w => ¬V.idle e.location ∧ v.Varies V w)
      (evaluatePart e' scope path id) :=
  evaluate_awake he scope (joinPath path id)

theorem evaluatePart_varies {e e' : Expr} (he : V.expr e e') (scope : RecordId)
    (path id : String) :
    (evaluatePart e scope path id).VariesValue V (evaluatePart e' scope path id) :=
  evaluate_varies he scope (joinPath path id)

theorem force_varies (cell : CellId) : (force cell).VariesValue V (force cell) :=
  .call (.force cell) fun _ _ h => .done h

theorem render_varies (spec : FormatSpec) {v w : Value} (h : v.Varies V w) :
    (render spec v).Varies V Eq (render spec w) :=
  .call (.render spec h) fun _ _ h => .done h

theorem tie_varies (work visited : List Object) :
    (tie work visited).Varies V Eq (tie work visited) :=
  .call (.tie work visited) fun _ _ h => .done h

theorem suspend_varies {e e' : Expr} (he : V.expr e e') (scope : RecordId) (path : String) :
    (suspend e scope path).Varies V Eq (suspend e' scope path) :=
  newCell_varies (.suspended (.evaluate he scope path) (V.expr_location he) (V.expr_place he) path)

theorem ready_varies {v w : Value} (h : v.Varies V w) :
    (newCell (.ready v)).Varies V Eq (newCell (.ready w)) :=
  newCell_varies (.ready h)

theorem addValue_varies (record : RecordId) (name : String) {v w : Value} (h : v.Varies V w) :
    (addValue record name v).Varies V Eq (addValue record name w) :=
  .bind_eq (ready_varies h) fun _ =>
    addMember_varies record name ⟨V.place_of_location h.location, rfl⟩

end Steps

theorem forceFound_varies (found : Option CellId) (cause : Cause) {l l' : Location}
    (h : V.location l l') :
    (forceFound found { cause, location := l }).VariesValue V
      (forceFound found { cause, location := l' }) := by
  cases found with
  | some cell => exact force_varies cell
  | none => exact .raise cause h

/-- An identifier that is not found is reported where it stands, which varies. -/
theorem lookup_varies (scope : RecordId) (name : String) {l l' : Location}
    (h : V.location l l') : (lookup scope name l).VariesValue V (lookup scope name l') := by
  refine .bind (find_varies scope name) fun found found' hfound => ?_
  rw [hfound]
  exact forceFound_varies _ (.unknownIdentifier name) h

theorem fieldCell_varies (fields : RecordId) (name : String) :
    (fieldCell fields name).Varies V Eq (fieldCell fields name) :=
  .bind (readRecord_varies fields) fun _ _ h => .pure (h.find?_cell_eq name)

theorem field_varies (fields : RecordId) (name : String) :
    (field fields name).VariesValue V (field fields name) :=
  .bind_eq (fieldCell_varies fields name) fun found =>
    forceFound_varies found (.unknownIdentifier name) V.unknown

theorem optionalField_varies (fields : RecordId) (name : String) :
    (optionalField fields name).Varies V (Option.Rel (Value.Varies V))
      (optionalField fields name) := by
  refine .bind_eq (fieldCell_varies fields name) fun found => ?_
  cases found with
  | some cell => exact .bind (force_varies cell) fun _ _ h => .pure (.some h)
  | none => exact .pure .none

/-- Cells are forced in the same order, and their values vary one by one. -/
theorem forceAll_varies (cells : List CellId) :
    (forceAll cells).Varies V (List.Forall₂ (Value.Varies V)) (forceAll cells) := by
  unfold forceAll
  induction cells with
  | nil => exact .pure .nil
  | cons cell rest ih =>
    simp only [List.mapM_cons]
    exact .bind (force_varies cell) fun _ _ h => .bind ih fun _ _ hs => .pure (.cons h hs)

theorem networkMember_varies (network : NetworkId) (name : String) :
    (networkMember network name).Varies V Eq (networkMember network name) := by
  refine .bind (readNetwork_varies network) fun n n' h => ?_
  have hfind : n.find? name = n'.find? name := congrArg (List.lookup name) h.nodes
  rw [h.fields, hfind]
  cases n'.find? name with
  | some node =>
    exact .bind_eq (ready_varies ⟨.object (.node node), h.location, rfl⟩) fun _ => .pure rfl
  | none => exact fieldCell_varies n'.fields name

/-- Members are looked up in records and networks, which are at the same places in both runs. A
    value of any other kind is refused in the same words. -/
theorem memberOf_varies {v w : Value} (h : v.Varies V w) (name : String) {l l' : Location}
    (hl : V.location l l') : (memberOf v name l).VariesValue V (memberOf w name l') := by
  have hmember {find : Program (Option CellId)} (hfind : find.Varies V Eq find) :
      (find >>= fun found => forceFound found (.unknownIdentifier name l)).VariesValue V
        (find >>= fun found => forceFound found (.unknownIdentifier name l')) :=
    .bind_eq hfind fun found => forceFound_varies found (.unknownIdentifier name) hl
  obtain ⟨x, place, path⟩ := v
  obtain ⟨y, place', path'⟩ := w
  cases h.payload with
  | record scope =>
    exact hmember (.bind (find_varies scope name) fun _ _ hfound => .pure hfound)
  | object o =>
    cases o with
    | network network => exact hmember (networkMember_varies network name)
    | _ => exact .raise _ hl
  | _ => exact .raise _ hl

end Program

namespace Value.Varies

open Program (CheckVaries)

variable {V : Variation} {v w : Value}

theorem mismatch {α β : Type} {Q : α → β → Prop} (h : v.Varies V w) (expected : String) :
    CheckVaries V Q (.error (v.mismatch expected)) (.error (w.mismatch expected)) := by
  rw [Value.mismatch, Value.mismatch, h.typeName_eq]
  exact .error (.typeMismatch expected w.typeName) h.location

theorem asNumber (h : v.Varies V w) : CheckVaries V Eq v.asNumber w.asNumber := by
  have hmismatch := h.mismatch (Q := @Eq Float) "number"
  obtain ⟨x, l, path⟩ := v
  obtain ⟨y, l', path'⟩ := w
  cases h.payload with
  | number x => exact .ok rfl
  | _ => exact hmismatch

theorem asTruth (h : v.Varies V w) : CheckVaries V Eq v.asTruth w.asTruth := by
  have hmismatch := h.mismatch (Q := @Eq Bool) "boolean"
  obtain ⟨x, l, path⟩ := v
  obtain ⟨y, l', path'⟩ := w
  cases h.payload with
  | truth b => exact .ok rfl
  | _ => exact hmismatch

theorem asText (h : v.Varies V w) : CheckVaries V Eq v.asText w.asText := by
  have hmismatch := h.mismatch (Q := @Eq String) "string"
  obtain ⟨x, l, path⟩ := v
  obtain ⟨y, l', path'⟩ := w
  cases h.payload with
  | text s => exact .ok rfl
  | _ => exact hmismatch

theorem asRecord (h : v.Varies V w) : CheckVaries V Eq v.asRecord w.asRecord := by
  have hmismatch := h.mismatch (Q := @Eq RecordId) "record"
  obtain ⟨x, l, path⟩ := v
  obtain ⟨y, l', path'⟩ := w
  cases h.payload with
  | record id => exact .ok rfl
  | _ => exact hmismatch

theorem asArray (h : v.Varies V w) : CheckVaries V Eq v.asArray w.asArray := by
  have hmismatch := h.mismatch (Q := @Eq LazyArray) "array"
  obtain ⟨x, l, path⟩ := v
  obtain ⟨y, l', path'⟩ := w
  cases h.payload with
  | array a => exact .ok rfl
  | _ => exact hmismatch

theorem asFunction (h : v.Varies V w) :
    CheckVaries V (Function.Varies V) v.asFunction w.asFunction := by
  have hmismatch := h.mismatch (Q := Function.Varies V) "function"
  obtain ⟨x, l, path⟩ := v
  obtain ⟨y, l', path'⟩ := w
  cases h.payload with
  | function hf => exact .ok hf
  | _ => exact hmismatch

theorem asNode (h : v.Varies V w) : CheckVaries V Eq v.asNode w.asNode := by
  have hmismatch := h.mismatch (Q := @Eq NodeId) "ComputationNode"
  obtain ⟨x, l, path⟩ := v
  obtain ⟨y, l', path'⟩ := w
  cases h.payload with
  | object o =>
    cases o with
    | node n => exact .ok rfl
    | _ => exact hmismatch
  | _ => exact hmismatch

theorem asIndex (h : v.Varies V w) : CheckVaries V Eq v.asIndex w.asIndex := by
  refine .bind_eq h.asNumber fun x => ?_
  cases Number.toIndex? x with
  | some i => exact .ok rfl
  | none => exact .error _ h.location

end Value.Varies

end NetDesc
