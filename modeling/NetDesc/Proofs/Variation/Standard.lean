import NetDesc.Proofs.Variation.Evaluator
import NetDesc.Render

namespace NetDesc

open Program (CheckVaries)

variable {V : Variation}

namespace Render

/-- The texts of members that go by the same names in the same order. Each is forced and
    formatted before the next one, so the two runs alternate between the same calls. -/
theorem members_varies (spec : FormatSpec) (found : Array String)
    {entries entries' : List (String × Member)}
    (h : List.Forall₂ (fun x y => x.1 = y.1 ∧ x.2.Varies V y.2) entries entries') :
    (members spec found entries).Varies V Eq (members spec found entries') := by
  induction h generalizing found with
  | nil => exact .pure rfl
  | cons hentry _ ih =>
    unfold members
    rw [hentry.1, hentry.2.cell]
    refine .bind (Program.force_varies _) fun v w hvw => ?_
    exact .bind_eq (Program.render_varies spec hvw) fun text => ih _

theorem elements_varies (spec : FormatSpec) (found : Array String) {vs ws : List Value}
    (h : List.Forall₂ (Value.Varies V) vs ws) :
    (elements spec found vs).Varies V Eq (elements spec found ws) := by
  induction h generalizing found with
  | nil => exact .pure rfl
  | cons hv _ ih => exact .bind_eq (Program.render_varies spec hv) fun text => ih _

/-- Values that vary have the same text in every format. A function is printed by its name and an
    object by what the store says of it, so no location is ever shown. -/
theorem value_varies (spec : FormatSpec) {v w : Value} (h : v.Varies V w) :
    (value spec v).Varies V Eq (value spec w) := by
  obtain ⟨x, l, path⟩ := v
  obtain ⟨y, l', path'⟩ := w
  cases h.payload with
  | number x => exact .pure rfl
  | text s => exact .pure rfl
  | truth b => exact .pure rfl
  | record id =>
    refine .bind (Program.readRecord_varies id) fun r k hrk => ?_
    exact .bind_eq (members_varies spec #[] hrk.members) fun texts => .pure rfl
  | array a =>
    refine .bind (Program.forceAll_varies a.cells.toList) fun vs ws hvs => ?_
    exact .bind_eq (elements_varies spec #[] hvs) fun texts => .pure rfl
  | function hf => exact .pure (by rw [hf.name])
  | object o => exact Program.describe_varies o

end Render

theorem FormatSpec.parse_varies (how : String) {l l' : Location} (hl : V.location l l') :
    CheckVaries V Eq (FormatSpec.parse how l) (FormatSpec.parse how l') := by
  unfold parse
  split
  · exact .error _ hl
  · split
    · exact .ok rfl
    · exact .error _ hl

namespace PrintAction

theorem textOf_varies {v w : Value} (h : v.Varies V w) : (textOf v).Varies V Eq (textOf w) := by
  have hrender := Program.render_varies {} h
  obtain ⟨x, l, path⟩ := v
  obtain ⟨y, l', path'⟩ := w
  cases h.payload with
  | text s => exact .pure rfl
  | _ => exact hrender

theorem varies : runtimeType.Varies V := by
  intro fields l l' hl path
  refine .bind (Program.field_varies fields "what") fun v w hvw => ?_
  refine .bind_eq (textOf_varies hvw) fun text => ?_
  refine .bind_eq (Program.print_varies text) fun _ => ?_
  exact .bind_eq (Program.newAction_varies { text }) fun action =>
    .pure ⟨.object (.action action), hl, rfl⟩

end PrintAction

theorem FailAction.varies : FailAction.runtimeType.Varies V := by
  intro fields l l' hl path
  refine .bind (Program.field_varies fields "what") fun v w hvw => ?_
  exact .check_eq hvw.asText fun message => .raise _ V.unknown

namespace TextFunction

/-- What a text function gives depends on the location of its selector only in errors, and those
    keep their cause. -/
theorem result_varies (what : String) {selector selector' arg arg' : Value}
    (hselector : selector.Varies V selector') (harg : arg.Varies V arg') (fields : RecordId) :
    (result what selector arg fields).Varies V Eq (result what selector' arg' fields) := by
  unfold result
  split
  · refine .bind (Program.field_varies fields "how") fun v w hvw => ?_
    refine .check_eq hvw.asText fun how => ?_
    refine .check_eq (FormatSpec.parse_varies how harg.location) fun spec => ?_
    exact Program.render_varies spec harg
  · refine .check_eq harg.asIndex fun code => ?_
    cases character? code with
    | some c => exact .pure rfl
    | none => exact .raise _ harg.location
  · refine .bind (Program.field_varies fields "pos") fun v w hvw => ?_
    refine .check_eq hvw.asIndex fun pos => ?_
    refine .bind (Program.field_varies fields "chars") fun v w hvw => ?_
    refine .check_eq hvw.asIndex fun count => ?_
    exact .check_eq harg.asText fun s => .pure rfl
  · refine .bind (Program.field_varies fields "replacewhat") fun v w hwhat => ?_
    refine .bind (Program.field_varies fields "withwhat") fun v w hreplacement => ?_
    refine .check_eq harg.asText fun s => ?_
    refine .check_eq hwhat.asText fun what => ?_
    exact .check_eq hreplacement.asText fun replacement => .pure rfl
  · exact .raise _ hselector.location

theorem varies : runtimeType.Varies V := by
  intro fields l l' hl path
  refine .bind (Program.field_varies fields "what") fun selector selector' hselector => ?_
  refine .check_eq hselector.asText fun what => ?_
  refine .bind (Program.field_varies fields "arg") fun arg arg' harg => ?_
  exact .bind_eq (result_varies what hselector harg fields) fun s => .pure ⟨.text s, hl, rfl⟩

end TextFunction

namespace NumericFunction

theorem length_varies {arg arg' : Value} (harg : arg.Varies V arg') :
    CheckVaries V Eq (length arg) (length arg') := by
  have hmismatch := harg.mismatch (Q := @Eq Nat) "string or array"
  obtain ⟨x, l, path⟩ := arg
  obtain ⟨y, l', path'⟩ := arg'
  cases harg.payload with
  | text s => exact .ok rfl
  | array a => exact .ok rfl
  | _ => exact hmismatch

theorem result_varies (what : String) {selector selector' arg arg' : Value}
    (hselector : selector.Varies V selector') (harg : arg.Varies V arg') :
    CheckVaries V Eq (result what selector arg) (result what selector' arg') := by
  unfold result
  split
  · exact .bind_eq harg.asNumber fun x => .ok rfl
  · exact .bind_eq (length_varies harg) fun n => .ok rfl
  · exact .error _ hselector.location

theorem varies : runtimeType.Varies V := by
  intro fields l l' hl path
  refine .bind (Program.field_varies fields "what") fun selector selector' hselector => ?_
  refine .check_eq hselector.asText fun what => ?_
  refine .bind (Program.field_varies fields "arg") fun arg arg' harg => ?_
  exact .check_eq (result_varies what hselector harg) fun x => .pure ⟨.number x, hl, rfl⟩

end NumericFunction

namespace Node

/-- A count is read off a field, and whether it is refused depends on its number only. -/
theorem dimension_varies (fields : RecordId) (name : String) :
    (dimension fields name).Varies V Eq (dimension fields name) := by
  refine .bind (Program.field_varies fields name) fun v w hvw => ?_
  refine .check_eq hvw.asIndex fun n => ?_
  exact .ite Iff.rfl (.raise _ hvw.location) (.pure rfl)

/-- The inputs of a node are the elements of the field, or the one value it has. There are as
    many of them on both sides, so both counts are refused or neither is. -/
theorem inputValues_varies (fields : RecordId) (op : Operation) :
    (inputValues fields op).Varies V (List.Forall₂ (Value.Varies V)) (inputValues fields op) := by
  have hcount {vs ws : List Value} (hvs : List.Forall₂ (Value.Varies V) vs ws)
      {l l' : Location} (hl : V.location l l') (message : Nat → String) :
      Program.Varies V (List.Forall₂ (Value.Varies V))
        (if vs.length = op.inputCount?.getD 0 then pure vs
          else .raise (.invalidArgument (message vs.length) l))
        (if ws.length = op.inputCount?.getD 0 then pure ws
          else .raise (.invalidArgument (message ws.length) l')) := by
    rw [hvs.length_eq]
    exact .ite Iff.rfl (.pure hvs) (.raise _ hl)
  let message (n : Nat) :=
    let counts := s!"expected {op.inputCount?.getD 0}, got {n}"
    s!"unexpected number of inputs to ComputationNode class {op.className}: {counts}"
  refine .bind (Program.field_varies fields "inputs") fun v w hvw => ?_
  have hsingle := hcount (.cons hvw .nil) hvw.location message
  obtain ⟨x, l, path⟩ := v
  obtain ⟨y, l', path'⟩ := w
  cases hvw.payload with
  | array a =>
    refine .bind (Program.forceAll_varies a.cells.toList) fun vs ws hvs => ?_
    exact hcount hvs hvw.location message
  | _ => exact hsingle

theorem asNodes_varies {vs ws : List Value} (h : List.Forall₂ (Value.Varies V) vs ws) :
    (vs.mapM fun v => (liftM v.asNode : Program NodeId)).Varies V Eq
      (ws.mapM fun v => (liftM v.asNode : Program NodeId)) := by
  induction h with
  | nil => exact .pure rfl
  | cons hv _ ih =>
    simp only [List.mapM_cons]
    exact .check_eq hv.asNode fun n => .bind_eq ih fun ns => .pure rfl

theorem inputNodes_varies (fields : RecordId) (op : Operation) :
    (inputNodes fields op).Varies V Eq (inputNodes fields op) :=
  .bind (inputValues_varies fields op) fun _ _ => asNodes_varies

theorem mapM_asNode_varies {vs ws : List Value} (h : List.Forall₂ (Value.Varies V) vs ws) :
    CheckVaries V Eq (vs.mapM Value.asNode) (ws.mapM Value.asNode) := by
  induction h with
  | nil => exact .ok rfl
  | cons hv _ ih =>
    simp only [List.mapM_cons]
    exact .bind_eq hv.asNode fun n => .bind_eq ih fun ns => .ok rfl

theorem scaleInputs_varies {vs ws : List Value} (h : List.Forall₂ (Value.Varies V) vs ws) :
    CheckVaries V Eq (scaleInputs vs) (scaleInputs ws) := by
  cases h with
  | nil => exact .ok rfl
  | cons hfactor hinputs =>
    exact .bind_eq hfactor.asNumber fun x => .bind_eq (mapM_asNode_varies hinputs) fun ns => .ok rfl

/-- The node of a class with the same settings and inputs in both runs. A delay only keeps the
    cell of its input, which is the same one. -/
theorem ofFields_varies (op : Operation) (tag : String) (fields : RecordId) :
    (ofFields op tag fields).Varies V Eq (ofFields op tag fields) := by
  have hinputs : Program.Varies V Eq
      (do
        let inputs ← inputNodes fields op
        return ({ operation := op, tag, inputs } : Node))
      (do
        let inputs ← inputNodes fields op
        return { operation := op, tag, inputs }) :=
    .bind_eq (inputNodes_varies fields op) fun inputs => .pure rfl
  cases op with
  | learnableParameter =>
    refine .bind_eq (dimension_varies fields "outDim") fun outDim => ?_
    exact .bind_eq (dimension_varies fields "inDim") fun inDim => .pure rfl
  | inputValue => exact .pure rfl
  | delay =>
    refine .bind_eq (Program.fieldCell_varies fields "input") fun found => ?_
    cases found with
    | none => exact .raise _ V.unknown
    | some input =>
      refine .bind (Program.field_varies fields "deltaT") fun v w hvw => ?_
      exact .check_eq hvw.asIndex fun deltaT => .pure rfl
  | scale =>
    refine .bind (inputValues_varies fields .scale) fun vs ws hvs => ?_
    exact .check_eq (scaleInputs_varies hvs) fun r => .pure rfl
  | rowSlice =>
    refine .bind_eq (dimension_varies fields "first") fun first => ?_
    refine .bind_eq (dimension_varies fields "num") fun num => ?_
    exact .bind_eq (inputNodes_varies fields .rowSlice) fun inputs => .pure rfl
  | _ => exact hinputs

theorem selectedOperation_varies (fields : RecordId) :
    (selectedOperation fields).Varies V Eq (selectedOperation fields) := by
  refine .bind (Program.field_varies fields "class") fun v w hvw => ?_
  refine .check_eq hvw.asText fun className => ?_
  cases Operation.ofClass? className with
  | some op => exact .pure rfl
  | none => exact .raise _ hvw.location

theorem tagOf_varies (fields : RecordId) : (tagOf fields).Varies V Eq (tagOf fields) := by
  refine .bind (Program.optionalField_varies fields "optionalTag") fun found found' h => ?_
  cases h with
  | some hvw => exact .ofExcept hvw.asText
  | none => exact .pure rfl

theorem varies : runtimeType.Varies V := by
  intro fields l l' hl path
  refine .bind_eq (selectedOperation_varies fields) fun op => ?_
  refine .bind_eq (tagOf_varies fields) fun tag => ?_
  refine .bind_eq (ofFields_varies op tag fields) fun n => ?_
  exact .bind_eq (Program.newNode_varies n) fun node => .pure ⟨.object (.node node), hl, rfl⟩

/-- Both runs force the cell that the node waits for, and nodes are the same in both. -/
theorem finalize_varies (node : NodeId) : (finalize node).Varies V Eq (finalize node) := by
  refine .bind_eq (Program.readNode_varies node) fun n => ?_
  cases n.pendingInput with
  | some cell =>
    refine .bind (Program.force_varies cell) fun v w hvw => ?_
    exact .check_eq hvw.asNode fun input => Program.tieInput_varies node input
  | none => exact .pure rfl

end Node

namespace Network

/-- One step of the search for what is left to be tied. It goes by objects, of which varying
    stores have the same, so the lists of both runs are equal. -/
theorem tieStep_varies (work visited : List Object) :
    (tieStep work visited).Varies V Eq (tieStep work visited) := by
  cases work with
  | nil => exact .pure rfl
  | cons o work =>
    have hrest : Program.Varies V Eq
        (do
          let children ← Program.children o
          Program.tie (work ++ children.filter (!(visited ++ [o]).contains ·)) (visited ++ [o]))
        (do
          let children ← Program.children o
          Program.tie (work ++ children.filter (!(visited ++ [o]).contains ·)) (visited ++ [o])) :=
      .bind_eq (Program.children_varies o) fun _ => Program.tie_varies _ _
    refine .ite Iff.rfl (Program.tie_varies work visited) ?_
    cases o with
    | node node => exact .bind_eq (Node.finalize_varies node) fun _ => hrest
    | _ => exact hrest

theorem roots_varies {members members' : List Member}
    (h : List.Forall₂ (Member.Varies V) members members') :
    (roots members).Varies V Eq (roots members') := by
  have hcells : members.map (·.cell) = members'.map (·.cell) := by
    induction h with
    | nil => rfl
    | cons hm _ ih => rw [List.map_cons, List.map_cons, hm.cell, ih]
  unfold roots
  rw [hcells]
  refine .bind (Program.forceAll_varies _) fun vs ws hvs => .pure ?_
  induction hvs with
  | nil => rfl
  | @cons v w vs ws hv _ ih =>
    obtain ⟨x, l, path⟩ := v
    obtain ⟨y, l', path'⟩ := w
    rw [List.filterMap_cons, List.filterMap_cons, ih]
    cases hv.payload <;> rfl

namespace Collected

variable {l l' : Location} (hl : V.location l l')

include hl

/-- Whether two nodes have the same name is decided by nodes that both runs share. Only the
    location of the error varies. -/
theorem add_varies (c : Collected) (node : NodeId) :
    (c.add node l).Varies V Eq (c.add node l') := by
  refine .bind_eq (Program.readNode_varies node) fun n => ?_
  have hpush (name : String) (unnamed : Nat) : Program.Varies V Eq
      (if c.nodes.any (·.1 == name) then
        .raise (.invalidArgument s!"multiple nodes with the name {name}" l)
      else
        return ⟨c.nodes.push (name, node), unnamed, c.inputs ++ n.inputs⟩ : Program Collected)
      (if c.nodes.any (·.1 == name) then
        .raise (.invalidArgument s!"multiple nodes with the name {name}" l')
      else
        return ⟨c.nodes.push (name, node), unnamed, c.inputs ++ n.inputs⟩) :=
    .ite Iff.rfl (.raise _ hl) (.pure rfl)
  by_cases hnamed : n.isNamed
  · simp only [hnamed, if_true]
    exact hpush _ _
  · simp only [hnamed, Bool.false_eq_true, if_false]
    exact .bind_eq (Program.rename_varies _ _) fun _ => hpush _ _

theorem addAll_varies (c : Collected) (nodes : List NodeId) :
    (c.addAll l nodes).Varies V Eq (c.addAll l' nodes) := by
  induction nodes generalizing c with
  | nil => exact .pure rfl
  | cons node rest ih => exact .bind_eq (add_varies hl c node) fun c => ih c

end Collected

variable {l l' : Location} (hl : V.location l l')

include hl

theorem sources_varies (nodes : List (String × NodeId)) :
    (sources l nodes).Varies V Eq (sources l' nodes) := by
  induction nodes with
  | nil => exact .pure rfl
  | cons entry rest ih =>
    obtain ⟨name, node⟩ := entry
    refine .bind_eq (Program.readNode_varies node) fun n => ?_
    refine .ite Iff.rfl ?_ ih
    split
    · exact .bind_eq ih fun s => .pure rfl
    · exact .bind_eq ih fun s => .pure rfl
    · exact .raise _ hl

/-- A network of the same nodes, inputs and outputs under the same names. Only the location that
    it remembers varies. -/
theorem ofFields_varies (fields : RecordId) :
    (ofFields fields l).Varies V (Network.Varies V) (ofFields fields l') := by
  refine .bind (Program.readRecord_varies fields) fun r k hrk => ?_
  have hmembers : List.Forall₂ (Member.Varies V) (r.members.toList.map (·.2))
      (k.members.toList.map (·.2)) :=
    List.forall₂_map_left_iff.2
      (List.forall₂_map_right_iff.2 (hrk.members.imp fun _ _ => And.right))
  refine .bind_eq (roots_varies hmembers) fun roots => ?_
  refine .bind_eq (Program.tie_varies _ []) fun visited => ?_
  refine .bind_eq (Collected.addAll_varies hl {} (nodesOf visited)) fun collected => ?_
  exact .bind_eq (sources_varies hl _) fun s => .pure ⟨rfl, rfl, rfl, rfl, rfl, hl⟩

omit hl in
theorem varies : runtimeType.Varies V := by
  intro fields l l' hl path
  refine .bind (ofFields_varies hl fields) fun n n' hn => ?_
  exact .bind_eq (Program.newNetwork_varies hn) fun network =>
    .pure ⟨.object (.network network), hl, rfl⟩

end Network

/-- No type that comes with the language looks at the location where it is instantiated, other
    than to say in an error where that was. -/
theorem Registry.standard_placeless : Registry.standard.Placeless := by
  intro V p hp
  have hp : p ∈ [("ComputationNode", Node.runtimeType),
      ("ComputationNetwork", Network.runtimeType),
      ("NDLComputationNetwork", Network.runtimeType),
      ("StringFunction", TextFunction.runtimeType),
      ("NumericFunction", NumericFunction.runtimeType),
      ("PrintAction", PrintAction.runtimeType),
      ("FailAction", FailAction.runtimeType)] := hp
  simp only [List.mem_cons, List.not_mem_nil, or_false] at hp
  rcases hp with rfl | rfl | rfl | rfl | rfl | rfl | rfl
  · exact Node.varies
  · exact Network.varies
  · exact Network.varies
  · exact TextFunction.varies
  · exact NumericFunction.varies
  · exact PrintAction.varies
  · exact FailAction.varies

end NetDesc
