import Mathlib.Data.List.Forall2
import NetDesc.Evaluator
import NetDesc.Proofs.Operators.Dispatch
import NetDesc.Proofs.Run.Calls
import NetDesc.Proofs.Store.Valid

namespace NetDesc

/-- What an operator adds to a store when it lays out the fields of a node: cells for all that
    the fields consist of, and a record that stands in no other one. This always succeeds and
    computes nothing. -/
def Store.withGraphFields (s : Store) (site : Site) (className : String) (left right : Value) :
    Store :=
  let inputs : LazyArray := { cells := #[s.cells.size + 1, s.cells.size + 2] }
  { s with
    cells := s.cells ++ #[.ready (site.textValue className), .ready left, .ready right,
      .ready (.array inputs left.location site.path)]
    records := s.records.push {
      members := #[("class", { location := site.location, cell := s.cells.size }),
        ("inputs", { location := left.location, cell := s.cells.size + 3 })] } }

namespace Operator

variable {carryOut : (c : Call) → Store → Outcome c.Reply} (s : Store) (site : Site)
  (left right : Value)

theorem run_graphFields (className : String) :
    (graphFields site className left right).run carryOut s =
      .value s.records.size (s.withGraphFields site className left right) := by
  let classCell : Cell := .ready (site.textValue className)
  let cells := ((s.cells.push classCell).push (.ready left)).push (.ready right)
  let first := (s.cells.push classCell).size
  let second := ((s.cells.push classCell).push (.ready left)).size
  let inputs : Cell := .ready (.array { cells := #[first, second] } left.location site.path)
  have hrun : (graphFields site className left right).run carryOut s =
      .value s.records.size { s with
        cells := cells.push inputs
        records := ((s.records.push {}).modify s.records.size
          (·.add "class" { location := site.location, cell := s.cells.size })).modify
            s.records.size (·.add "inputs" { location := left.location, cell := cells.size }) } :=
    rfl
  have hcells : cells.push inputs =
      s.cells ++ #[classCell, .ready left, .ready right, inputs] := by
    apply Array.ext'
    simp [cells]
  rw [hrun, hcells, push_modify_size, push_modify_size]
  simp only [Store.withGraphFields, inputs, first, second, cells, Array.size_push]
  rfl

end Operator

/-- The record consists of the class of a node and the array of its two inputs, all of which are
    known. It stands in no other record. -/
structure Store.HoldsFields (s : Store) (fields : RecordId) (site : Site) (className : String)
    (left right : Value) : Prop where
  outermost : (s.record fields).enclosing = []
  names : (s.record fields).names = ["class", "inputs"]
  className : ∃ m, (s.record fields).find? "class" = some m ∧
    s.cell m.cell = .ready (site.textValue className)
  inputs : ∃ m first second, (s.record fields).find? "inputs" = some m ∧
    s.cell m.cell = .ready
      (.array { first := 0, cells := #[first, second] } left.location site.path) ∧
    s.cell first = .ready left ∧ s.cell second = .ready right

theorem Store.withGraphFields_holdsFields (s : Store) (site : Site) (className : String)
    (left right : Value) :
    (s.withGraphFields site className left right).HoldsFields s.records.size site className left
      right := by
  let class_ : Member := { location := site.location, cell := s.cells.size }
  let inputs : Member := { location := left.location, cell := s.cells.size + 3 }
  have hrecord : (s.withGraphFields site className left right).record s.records.size =
      { members := #[("class", class_), ("inputs", inputs)] } := by
    simp [withGraphFields, record, class_, inputs]
  have hcell {k : Nat} {c : Cell} (hc : #[Cell.ready (site.textValue className), .ready left,
      .ready right, .ready (.array { cells := #[s.cells.size + 1, s.cells.size + 2] } left.location
        site.path)][k]? = some c) :
      (s.withGraphFields site className left right).cell (s.cells.size + k) = c := by
    rw [cell, Array.getD_eq_getD_getElem?, withGraphFields,
      Array.getElem?_append_right (Nat.le_add_right _ _), Nat.add_sub_cancel_left, hc,
      Option.getD_some]
  exact {
    outermost := by rw [hrecord]
    names := by rw [hrecord]; rfl
    className := ⟨class_, by rw [hrecord]; rfl, hcell (k := 0) rfl⟩
    inputs := ⟨inputs, s.cells.size + 1, s.cells.size + 2, by rw [hrecord]; rfl,
      hcell rfl, hcell rfl, hcell rfl⟩ }

namespace Operator

section Scaling

variable {r : Registry} {n x : Value} {factor : Float} {o : Object}
  (hn : n.payload = .number factor) (hx : x.payload = .object o) (location : Location)
  (path : String)

include hn hx

theorem apply_number_object (hmul : .numberObject ∈ r.operators.accepted .mul) :
    apply r ⟨.mul, location, path⟩ n x = (do
      let fields ← graphFields ⟨.mul, location, path⟩ "ScaleNode" n x
      r.construct r.graphNodeType fields location path) := by
  obtain ⟨_, k, via⟩ := n
  obtain ⟨_, l, from_⟩ := x
  cases hn
  cases hx
  exact if_pos hmul

theorem apply_object_number (hmul : .objectNumber ∈ r.operators.accepted .mul) :
    apply r ⟨.mul, location, path⟩ x n = (do
      let fields ← graphFields ⟨.mul, location, path⟩ "ScaleNode" n x
      r.construct r.graphNodeType fields location path) := by
  obtain ⟨_, k, via⟩ := n
  obtain ⟨_, l, from_⟩ := x
  cases hn
  cases hx
  exact if_pos hmul

end Scaling

end Operator

/-- No object but a node can be an input of a node. -/
theorem Value.asNode_of_object {x : Value} {o : Object} (hx : x.payload = .object o) :
    (∃ child, o = .node child ∧ x.asNode = .ok child) ∨
      ((∀ child, o ≠ .node child) ∧ x.asNode = .error (x.mismatch "ComputationNode")) := by
  rw [asNode, hx]
  cases o with
  | node child => exact .inl ⟨child, rfl, rfl⟩
  | network id => exact .inr ⟨nofun, rfl⟩
  | action id => exact .inr ⟨nofun, rfl⟩

/-- Cells that are finished are not computed again. -/
def Remembers (carryOut : (c : Call) → Store → Outcome c.Reply) : Prop :=
  ∀ (s : Store) (cell : CellId) (v : Value), s.cell cell = .ready v →
    carryOut (.force cell) s = .value v s

theorem Evaluator.carryOut_remembers (ev : Evaluator) (fuel depth : Nat) :
    Remembers (ev.carryOut (fuel + 1) depth) := fun _ _ _ h =>
  ev.carryOut_force_finished fuel depth (by rw [h]; rfl)

section Construct

variable {carryOut : (c : Call) → Store → Outcome c.Reply} (hcarry : Remembers carryOut)
  {s : Store} {fields : RecordId}

include hcarry

theorem Program.run_force_ready {cell : CellId} {v : Value} (h : s.cell cell = .ready v) :
    (Program.force cell).run carryOut s = .value v s :=
  (run_call carryOut (.force cell) s).trans (hcarry s cell v h)

omit hcarry in
theorem Program.run_fieldCell (name : String) :
    (Program.fieldCell fields name).run carryOut s =
      .value (((s.record fields).find? name).map (·.cell)) s :=
  rfl

theorem Program.run_field_ready {name : String} {m : Member} {v : Value}
    (hm : (s.record fields).find? name = some m) (hv : s.cell m.cell = .ready v) :
    (Program.field fields name).run carryOut s = .value v s := by
  rw [field, run_bind, run_fieldCell, hm]
  exact run_force_ready hcarry hv

theorem Program.run_forceAll_ready {cells : List CellId} {values : List Value}
    (h : List.Forall₂ (fun c v => s.cell c = .ready v) cells values) :
    (Program.forceAll cells).run carryOut s = .value values s := by
  induction h with
  | nil => rfl
  | cons hv _ ih =>
    rw [forceAll] at ih ⊢
    rw [List.mapM_cons, run_bind, run_force_ready hcarry hv]
    change (List.mapM force _ >>= _).run carryOut s = _
    rw [run_bind, ih]
    rfl

omit hcarry in
theorem Program.run_optionalField_none {name : String} (h : name ∉ (s.record fields).names) :
    (Program.optionalField fields name).run carryOut s = .value none s := by
  rw [optionalField, run_bind, run_fieldCell, Record.find?_eq_none_of_not_mem h]
  rfl

namespace Node

variable {site : Site} {n x : Value} {factor : Float}
  (h : s.HoldsFields fields site "ScaleNode" n x) (hn : n.payload = .number factor)

include h

theorem run_selectedOperation_scale :
    (selectedOperation fields).run carryOut s = .value .scale s := by
  obtain ⟨m, hm, hv⟩ := h.className
  rw [selectedOperation, Program.run_bind, Program.run_field_ready hcarry hm hv]
  rfl

omit hcarry in
theorem run_tagOf_scale : (tagOf fields).run carryOut s = .value "" s := by
  rw [tagOf, Program.run_bind, Program.run_optionalField_none (by rw [h.names]; decide)]
  rfl

theorem run_inputValues_scale :
    (inputValues fields .scale).run carryOut s = .value [n, x] s := by
  obtain ⟨m, first, second, hm, hv, hfirst, hsecond⟩ := h.inputs
  rw [inputValues, Program.run_bind, Program.run_field_ready hcarry hm hv]
  change (Program.forceAll [first, second] >>= _).run carryOut s = _
  rw [Program.run_bind, Program.run_forceAll_ready hcarry (.cons hfirst (.cons hsecond .nil))]
  rfl

include hn

/-- The factor is a number already, so the other operand decides whether there is a node. -/
theorem run_ofFields_scale :
    (ofFields .scale "" fields).run carryOut s =
      match x.asNode with
      | .ok child => .value { operation := .scale, settings := .scale factor, inputs := [child] } s
      | .error e => .error e s := by
  have hfactor : n.asNumber = .ok factor := by rw [Value.asNumber, hn]
  rw [ofFields, Program.run_bind, run_inputValues_scale hcarry h]
  simp only [Outcome.bind, scaleInputs, hfactor, List.mapM_cons, List.mapM_nil]
  cases x.asNode with
  | ok child => rfl
  | error e => rfl

theorem run_construct_scale (location : Location) (path : String) :
    (construct fields location path).run carryOut s =
      match x.asNode with
      | .ok child => .value (.object (.node s.nodes.size) location path) {
          s with
          nodes := s.nodes.push {
            operation := .scale, settings := .scale factor, inputs := [child] } }
      | .error e => .error e s := by
  rw [construct, Program.run_bind, run_selectedOperation_scale hcarry h]
  simp only [Outcome.bind]
  rw [Program.run_bind, run_tagOf_scale h]
  simp only [Outcome.bind]
  rw [Program.run_bind, run_ofFields_scale hcarry h hn]
  cases x.asNode with
  | ok child => rfl
  | error e => rfl

/-- A node is named when its constructor has returned. -/
theorem run_instantiate_scale (location : Location) (path : String) :
    (Registry.instantiate runtimeType fields location path).run carryOut s =
      match x.asNode with
      | .ok child => .value (.object (.node s.nodes.size) location path) {
          s with
          nodes := s.nodes.push {
            operation := .scale, name := path, settings := .scale factor, inputs := [child] } }
      | .error e => .error e s := by
  change (construct fields location path >>= _).run carryOut s = _
  rw [Program.run_bind, run_construct_scale hcarry h hn]
  cases x.asNode with
  | error e => rfl
  | ok child =>
    let made : Node := { operation := .scale, settings := .scale factor, inputs := [child] }
    have hnamed := push_modify_size s.nodes made ({ · with name := path })
    exact congrArg (fun nodes =>
      Outcome.value (Value.object (.node s.nodes.size) location path) { s with nodes }) hnamed

end Node

end Construct

namespace Operator

section Scaling

variable {r : Registry} (hmul : r.operators.accepted .mul = OperatorTable.standard.accepted .mul)
  {n x left right : Value} {factor : Float} (hn : n.payload = .number factor) {o : Object}
  (hx : x.payload = .object o)
  (hsides : (left, right) = (n, x) ∨ (left, right) = (x, n)) (location : Location) (path : String)
  (s : Store)

include hmul hn hx hsides

/-- The operands are the inputs, the number first, whichever of them is on the left. -/
theorem run_apply_scale (carryOut : (c : Call) → Store → Outcome c.Reply) :
    (apply r ⟨.mul, location, path⟩ left right).run carryOut s =
      (r.construct r.graphNodeType s.records.size location path).run carryOut
        (s.withGraphFields ⟨.mul, location, path⟩ "ScaleNode" n x) := by
  have happly : apply r ⟨.mul, location, path⟩ left right = (do
      let fields ← graphFields ⟨.mul, location, path⟩ "ScaleNode" n x
      r.construct r.graphNodeType fields location path) := by
    obtain ⟨rfl, rfl⟩ | ⟨rfl, rfl⟩ := hsides.imp Prod.mk.inj Prod.mk.inj
    · exact apply_number_object hn hx location path (by rw [hmul]; decide)
    · exact apply_object_number hn hx location path (by rw [hmul]; decide)
  rw [happly, Program.run_bind, run_graphFields]
  rfl

/-- The type of computation nodes takes nothing but nodes as the second input. -/
theorem run_apply_scale_node (hnode : r.find? r.graphNodeType = some Node.runtimeType)
    {carryOut : (c : Call) → Store → Outcome c.Reply} (hcarry : Remembers carryOut) :
    (apply r ⟨.mul, location, path⟩ left right).run carryOut s =
      match x.asNode with
      | .ok child => .value (.object (.node s.nodes.size) location path) {
          s.withGraphFields ⟨.mul, location, path⟩ "ScaleNode" n x with
          nodes := s.nodes.push {
            operation := .scale, name := path, settings := .scale factor, inputs := [child] } }
      | .error e => .error e (s.withGraphFields ⟨.mul, location, path⟩ "ScaleNode" n x) := by
  have hfields := s.withGraphFields_holdsFields ⟨.mul, location, path⟩ "ScaleNode" n x
  rw [run_apply_scale hmul hn hx hsides, Registry.construct, Registry.runtimeType, hnode]
  exact Node.run_instantiate_scale hcarry hfields hn location path

end Scaling

/-- A number and an object make the same node in either order: whichever type is registered for
    nodes, it is instantiated from the same fields, with the number first, and in the same store.
    The type of computation nodes makes a scaling of the object of them, or rejects the object.
    A sign in front of an object multiplies it by minus one. -/
theorem scaling_commutes {r : Registry}
    (hmul : r.operators.accepted .mul = OperatorTable.standard.accepted .mul) {n x : Value}
    {factor : Float} (hn : n.payload = .number factor) {o : Object} (hx : x.payload = .object o)
    (location : Location) (path : String) (s : Store) :
    (∃ fields t, t.HoldsFields fields ⟨.mul, location, path⟩ "ScaleNode" n x ∧
      ∀ carryOut,
        (apply r ⟨.mul, location, path⟩ n x).run carryOut s =
          (r.construct r.graphNodeType fields location path).run carryOut t ∧
        (apply r ⟨.mul, location, path⟩ x n).run carryOut s =
          (r.construct r.graphNodeType fields location path).run carryOut t) ∧
    (r.find? r.graphNodeType = some Node.runtimeType → ∀ (ev : Evaluator) (fuel depth : Nat),
      ∃ t, ∀ left right, (left, right) = (n, x) ∨ (left, right) = (x, n) →
        (∃ child, o = .node child ∧
          (apply r ⟨.mul, location, path⟩ left right).run (ev.carryOut (fuel + 1) depth) s =
            .value (.object (.node s.nodes.size) location path) t ∧
          t.node s.nodes.size = {
            operation := .scale, name := path, settings := .scale factor, inputs := [child] }) ∨
        ((∀ child, o ≠ .node child) ∧
          (apply r ⟨.mul, location, path⟩ left right).run (ev.carryOut (fuel + 1) depth) s =
            .error (x.mismatch "ComputationNode") t)) ∧
    (∀ (ev : Evaluator) (operand : Expr) (scope : RecordId) (carryOut) (t : Store),
      ev.registry = r →
      carryOut (.perform (.evaluate operand scope (joinPath path "_negate"))) t = .value x s →
      (ev.evaluateKind (.unary .neg operand) location scope path).run carryOut t =
        (apply r ⟨.mul, location, path⟩ (.number (-1) location path) x).run carryOut s) := by
  refine ⟨⟨s.records.size, _, s.withGraphFields_holdsFields _ _ _ _, fun carryOut => ?_⟩, ?_, ?_⟩
  · exact ⟨run_apply_scale hmul hn hx (.inl rfl) location path s carryOut,
      run_apply_scale hmul hn hx (.inr rfl) location path s carryOut⟩
  · intro hnode ev fuel depth
    have hrun {left right : Value} (hsides : (left, right) = (n, x) ∨ (left, right) = (x, n)) :=
      run_apply_scale_node hmul hn hx hsides location path s hnode
        (ev.carryOut_remembers fuel depth)
    obtain ⟨child, rfl, hchild⟩ | ⟨hother, hmismatch⟩ := Value.asNode_of_object hx
    · simp only [hchild] at hrun
      refine ⟨_, fun left right hsides => .inl ⟨child, rfl, hrun hsides, ?_⟩⟩
      have hpush := Store.node_push (s.withGraphFields ⟨.mul, location, path⟩ "ScaleNode" n x)
      exact (hpush _ s.nodes.size).trans (if_pos rfl)
    · simp only [hmismatch] at hrun
      exact ⟨_, fun left right hsides => .inr ⟨hother, hrun hsides⟩⟩
  · intro ev operand scope carryOut t hev hoperand
    have hpart : (Program.evaluatePart operand scope path "_negate").run carryOut t = .value x s :=
      (Program.run_call carryOut _ t).trans hoperand
    change (Program.evaluatePart operand scope path "_negate" >>= _).run carryOut t = _
    rw [Program.run_bind, hpart, ← hev]
    simp only [Outcome.bind, hx]

/-- A store with an input of a network that is called `x` in its only record. -/
def singleInput : Store where
  cells := #[.ready (.object (.node 0) .unknown "$.x")]
  records := #[{ members := #[("x", { location := .unknown, cell := 0 })] }]
  nodes := #[{ operation := .inputValue, name := "$.x" }]

/-- An input of a network is scaled by a factor on its right and by a sign. -/
theorem scaling_commutes_input :
    (∃ t : Store,
      (apply .standard ⟨.mul, .unknown, "$.y"⟩ (.object (.node 0) .unknown "$.x")
        (.number 2 .unknown "")).run (({} : Evaluator).carryOut 1 0) singleInput =
          .value (.object (.node 1) .unknown "$.y") t ∧
      t.node 1 = {
        operation := .scale, name := "$.y", settings := .scale 2, inputs := [0] }) ∧
    (({} : Evaluator).evaluateKind (.unary .neg (.mk (.var "x") .unknown)) .unknown
      0 "$.y").run (({} : Evaluator).carryOut 2 0) singleInput =
        (apply .standard ⟨.mul, .unknown, "$.y"⟩ (.number (-1) .unknown "$.y")
          (.object (.node 0) .unknown "$.x")).run (({} : Evaluator).carryOut 2 0) singleInput := by
  obtain ⟨-, hnodes, hneg⟩ := scaling_commutes (r := .standard) rfl
    (n := .number 2 .unknown "") rfl (x := .object (.node 0) .unknown "$.x") rfl
    .unknown "$.y" singleInput
  refine ⟨?_, hneg {} _ 0 _ singleInput rfl rfl⟩
  obtain ⟨t, ht⟩ := hnodes rfl {} 0 0
  obtain ⟨child, hchild, hrun, hnode⟩ | ⟨hother, -⟩ := ht _ _ (.inr rfl)
  · cases hchild
    exact ⟨t, hrun, hnode⟩
  · exact absurd rfl (hother 0)

end Operator

end NetDesc
