import NetDesc.Proofs.Program.Evaluator
import NetDesc.Render

namespace NetDesc

namespace Render

variable {base : Nat} {s : Store}

theorem members_ensures (spec : FormatSpec) (found : Array String)
    {named : List (String × Member)} (hnamed : ∀ p ∈ named, p.2.cell < s.cells.size) :
    (members spec found named).Ensures base s fun _ _ _ => True := by
  induction named generalizing base s found with
  | nil => exact .pure trivial
  | cons p named ih =>
    obtain ⟨name, m⟩ := p
    refine .bind (Program.force_ensures (hnamed (name, m) (by simp))) ?_
    rintro b t v - hst - ⟨-, -, hv, -⟩
    refine .bind (Program.render_ensures spec hv) fun b u text _ htu _ _ => ?_
    refine ih _ fun p hp => Nat.lt_of_lt_of_le (hnamed p (by simp [hp])) ?_
    exact (hst.covers.trans htu.covers).cells

theorem elements_ensures (spec : FormatSpec) (found : Array String) {values : List Value}
    (hvalues : ∀ v ∈ values, v.Valid s) :
    (elements spec found values).Ensures base s fun _ _ _ => True := by
  induction values generalizing base s found with
  | nil => exact .pure trivial
  | cons v values ih =>
    refine .bind (Program.render_ensures spec (hvalues v (by simp))) fun b t text _ hst _ _ => ?_
    exact ih _ fun w hw => (hvalues w (by simp [hw])).mono hst.covers

/-- Formatting only reads places that are there. -/
theorem value_ensures (spec : FormatSpec) {v : Value} (hv : v.Valid s) :
    (value spec v).Ensures base s fun _ _ _ => True := by
  unfold value
  split
  · exact .pure trivial
  · exact .pure trivial
  · exact .pure trivial
  · next id _ =>
    refine .bind (Program.readRecord_ensures id) ?_
    rintro b t r hwf - - ⟨rfl, rfl, rfl⟩
    have hmembers : ∀ p ∈ (t.record id).members.toList, p.2.cell < t.cells.size := fun p hp =>
      (hwf.record_valid id).members p (Array.mem_toList_iff.1 hp)
    exact .bind (members_ensures spec #[] hmembers) fun _ _ _ _ _ _ _ => .pure trivial
  · next a ha =>
    have hcells : ∀ c ∈ a.cells.toList, c < s.cells.size := by
      simpa [Value.Valid, ha, Payload.Valid] using hv
    refine .bind (Program.forceAll_valid hcells) fun b t values _ _ _ hvalues => ?_
    exact .bind (elements_ensures spec #[] hvalues) fun _ _ _ _ _ _ _ => .pure trivial
  · exact .pure trivial
  · exact .step (fun _ => trivial) trivial

end Render

namespace PrintAction

theorem runtimeType_sound : runtimeType.Sound := by
  intro fields location path base s _
  refine .bind (Program.field_givesValue fields "what") fun b t what _ _ _ hwhat => ?_
  refine .bind (P := fun _ _ _ => True) ?_ fun b u text _ _ _ _ => ?_
  · unfold textOf
    split
    · exact .pure trivial
    · exact Program.render_ensures {} hwhat
  · refine .bind (P := fun _ _ _ => True) (.step (fun _ => trivial) trivial) ?_
    intro b v _ _ _ _ _
    refine .bind (P := fun _ t id => id < t.actions.size) (.step (fun _ => trivial) ?_) ?_
    · simp [Access.perform]
    · exact fun b w id _ _ _ hid => .pure ⟨hid, by rintro _ ⟨⟩⟩

end PrintAction

namespace FailAction

theorem runtimeType_sound : runtimeType.Sound := by
  intro fields location path base s _
  refine .bind (Program.field_givesValue fields "what") fun b t what _ _ _ _ => ?_
  exact .check fun message _ => .raise _

end FailAction

namespace TextFunction

variable {base : Nat} {s : Store}

theorem result_ensures (what : String) (selector : Value) {arg : Value} (harg : arg.Valid s)
    (fields : RecordId) :
    (result what selector arg fields).Ensures base s fun _ _ _ => True := by
  unfold result
  split
  · refine .bind (Program.field_givesValue fields _) fun b t how _ hst _ _ => ?_
    refine .check fun how _ => .check fun spec _ => ?_
    exact Program.render_ensures spec (harg.mono hst.covers)
  · refine .check fun code _ => ?_
    split
    · exact .pure trivial
    · exact .raise _
  · refine .bind (Program.field_givesValue fields _) fun _ _ _ _ _ _ _ => .check fun _ _ => ?_
    refine .bind (Program.field_givesValue fields _) fun _ _ _ _ _ _ _ => .check fun _ _ => ?_
    exact .check fun _ _ => .pure trivial
  · refine .bind (Program.field_givesValue fields _) fun _ _ _ _ _ _ _ => ?_
    refine .bind (Program.field_givesValue fields _) fun _ _ _ _ _ _ _ => .check fun _ _ => ?_
    exact .check fun _ _ => .check fun _ _ => .pure trivial
  · exact .raise _

theorem runtimeType_sound : runtimeType.Sound := by
  intro fields location path base s _
  refine .bind (Program.field_givesValue fields "what") fun _ _ _ _ _ _ _ => .check fun _ _ => ?_
  refine .bind (Program.field_givesValue fields "arg") fun _ _ arg _ _ _ harg => ?_
  refine .bind (result_ensures _ _ harg fields) fun _ _ _ _ _ _ _ => ?_
  exact .pure ⟨trivial, by rintro _ ⟨⟩⟩

end TextFunction

namespace NumericFunction

theorem runtimeType_sound : runtimeType.Sound := by
  intro fields location path base s _
  refine .bind (Program.field_givesValue fields "what") fun _ _ _ _ _ _ _ => .check fun _ _ => ?_
  refine .bind (Program.field_givesValue fields "arg") fun _ _ _ _ _ _ _ => .check fun _ _ => ?_
  exact .pure ⟨trivial, by rintro _ ⟨⟩⟩

end NumericFunction

namespace Node

variable {base : Nat} {s : Store}

theorem dimension_ensures (fields : RecordId) (name : String) :
    (dimension fields name).Ensures base s fun _ _ _ => True := by
  refine .bind (Program.field_givesValue fields name) fun _ _ _ _ _ _ _ => .check fun _ _ => ?_
  split
  · exact .raise _
  · exact .pure trivial

theorem inputValues_ensures (fields : RecordId) (op : Operation) :
    (inputValues fields op).Ensures base s fun _ t values =>
      values.length = op.inputCount?.getD 0 ∧ ∀ v ∈ values, v.Valid t := by
  have hcount (b : Nat) (t : Store) (values : List Value) (e : EvalError)
      (hvalues : ∀ v ∈ values, v.Valid t) :
      Program.Ensures (if values.length = op.inputCount?.getD 0 then pure values else .raise e) b t
        fun _ t values => values.length = op.inputCount?.getD 0 ∧ ∀ v ∈ values, v.Valid t := by
    split
    · next hlength => exact .pure ⟨hlength, hvalues⟩
    · exact .raise _
  refine .bind (Program.field_givesValue fields "inputs") fun b t inputs _ _ _ hinputs => ?_
  dsimp only
  split
  · next a ha =>
    have hcells : ∀ c ∈ a.cells.toList, c < t.cells.size := by
      simpa [Value.Valid, ha, Payload.Valid] using hinputs
    exact .bind (Program.forceAll_valid hcells) fun b u values _ _ _ hvalues =>
      hcount b u values _ hvalues
  · exact hcount b t [inputs] _ fun v hv => by rwa [List.mem_singleton.1 hv]

/-- Values that all are nodes are nodes that are there. -/
theorem asNodes_ensures {values : List Value} (hvalues : ∀ v ∈ values, v.Valid s) :
    (values.mapM fun v => (v.asNode : Program NodeId)).Ensures base s fun _ t nodes =>
      t = s ∧ nodes.length = values.length ∧ ∀ n ∈ nodes, n < s.nodes.size := by
  induction values with
  | nil => exact .pure ⟨rfl, rfl, by simp⟩
  | cons v values ih =>
    rw [List.mapM_cons]
    refine .check fun n hn => ?_
    refine .bind (ih fun w hw => hvalues w (List.mem_cons_of_mem _ hw)) ?_
    rintro b t rest - - - ⟨rfl, hlength, hrest⟩
    refine .pure ⟨rfl, by simp [hlength], ?_⟩
    rw [List.forall_mem_cons]
    exact ⟨Value.asNode_valid (hvalues v List.mem_cons_self) hn, hrest⟩

/-- As many nodes as the class has inputs, all of which are there. -/
theorem inputNodes_ensures (fields : RecordId) (op : Operation) :
    (inputNodes fields op).Ensures base s fun _ t nodes =>
      nodes.length = op.inputCount?.getD 0 ∧ ∀ n ∈ nodes, n < t.nodes.size := by
  refine .bind (inputValues_ensures fields op) ?_
  rintro b t values - - - ⟨hcount, hvalues⟩
  refine (asNodes_ensures hvalues).imp ?_
  rintro b u nodes - - - ⟨rfl, hlength, hnodes⟩
  exact ⟨hlength.trans hcount, hnodes⟩

/-- A scale node takes two values, of which the second is a node. -/
theorem scaleInputs_valid {values : List Value} (hvalues : ∀ v ∈ values, v.Valid s)
    (hcount : values.length = 2) {factor : Float} {nodes : List NodeId}
    (h : scaleInputs values = .ok (factor, nodes)) :
    nodes.length = 1 ∧ ∀ n ∈ nodes, n < s.nodes.size := by
  obtain ⟨v, w, rfl⟩ := List.length_eq_two.1 hcount
  cases hv : v.asNumber with
  | error e =>
    have hfail : scaleInputs [v, w] = .error e := by rw [scaleInputs, hv]; rfl
    simp [hfail] at h
  | ok x =>
    cases hw : w.asNode with
    | error e =>
      have hfail : scaleInputs [v, w] = .error e := by simp [scaleInputs, hv, hw]; rfl
      simp [hfail] at h
    | ok n =>
      have hok : scaleInputs [v, w] = .ok (x, [n]) := by simp [scaleInputs, hv, hw]; rfl
      rw [hok] at h
      cases h
      simpa using Value.asNode_valid (hvalues w (by simp)) hw

/-- Whatever its settings are, a node with the nodes of the field `inputs` has as many as it
    should have, as long as it takes them all. -/
theorem ofInputs_ensures (fields : RecordId) (op : Operation) (tag : String)
    (settings : NodeSettings)
    (harity : ∀ inputs, Node.arity { operation := op, tag, settings, inputs } =
      op.inputCount?.getD 0) :
    Program.Ensures (do
      let inputs ← inputNodes fields op
      return ({ operation := op, tag, settings, inputs } : Node)) base s
      fun _ t n => n.Valid t ∧ n.name = "" := by
  refine .bind (inputNodes_ensures fields op) ?_
  rintro b t inputs - - - ⟨hlength, hvalid⟩
  exact .pure ⟨⟨hvalid, by simp, by simp, by rw [harity, hlength]⟩, rfl⟩

/-- A node is made with the inputs that it should have, and without a name. A delay is made
    without inputs and waits for the cell of its field. -/
theorem ofFields_ensures (op : Operation) (tag : String) (fields : RecordId) :
    (ofFields op tag fields).Ensures base s fun _ t n => n.Valid t ∧ n.name = "" := by
  cases op with
  | learnableParameter =>
    refine .bind (dimension_ensures fields "outDim") fun _ _ _ _ _ _ _ => ?_
    refine .bind (dimension_ensures fields "inDim") fun _ _ _ _ _ _ _ => ?_
    exact .pure ⟨⟨by simp, by simp, by simp, rfl⟩, rfl⟩
  | inputValue => exact .pure ⟨⟨by simp, by simp, by simp, rfl⟩, rfl⟩
  | delay =>
    refine .bind (Program.fieldCell_ensures fields "input") ?_
    rintro b t found - - - ⟨rfl, rfl, hfound⟩
    cases found with
    | none => exact .raise _
    | some cell =>
      refine .bind (Program.field_givesValue fields "deltaT") fun b u _ _ htu _ _ => ?_
      refine .check fun deltaT _ => .pure ⟨⟨by simp, ?_, by simp, rfl⟩, rfl⟩
      rintro c ⟨⟩
      exact Nat.lt_of_lt_of_le (hfound cell rfl) htu.covers.cells
  | scale =>
    refine .bind (inputValues_ensures fields .scale) ?_
    rintro b t values - - - ⟨hcount, hvalues⟩
    refine .check fun pair hpair => ?_
    obtain ⟨factor, inputs⟩ := pair
    obtain ⟨hlength, hvalid⟩ := scaleInputs_valid hvalues hcount hpair
    exact .pure ⟨⟨hvalid, by simp, by simp, hlength⟩, rfl⟩
  | rowSlice =>
    refine .bind (dimension_ensures fields "first") fun _ _ first _ _ _ _ => ?_
    refine .bind (dimension_ensures fields "num") fun _ _ num _ _ _ _ => ?_
    exact ofInputs_ensures fields .rowSlice tag (.rowSlice first num) fun _ => rfl
  | _ => exact ofInputs_ensures fields _ tag .none fun _ => rfl

theorem selectedOperation_ensures (fields : RecordId) :
    (selectedOperation fields).Ensures base s fun _ _ _ => True := by
  refine .bind (Program.field_givesValue fields "class") fun _ _ _ _ _ _ _ => .check fun _ _ => ?_
  split
  · exact .pure trivial
  · exact .raise _

theorem tagOf_ensures (fields : RecordId) : (tagOf fields).Ensures base s fun _ _ _ => True := by
  refine .bind (Program.optionalField_ensures fields "optionalTag") fun _ _ _ _ _ _ _ => ?_
  split
  · exact .ofExcept fun _ _ => trivial
  · exact .pure trivial

/-- A node type makes a node with the right number of inputs, which are nodes, and without a
    name. This is all that networks rely on later. -/
theorem runtimeType_sound : runtimeType.Sound := by
  intro fields location path base s _
  refine .bind (selectedOperation_ensures fields) fun _ _ op _ _ _ _ => ?_
  refine .bind (tagOf_ensures fields) fun _ _ tag _ _ _ _ => ?_
  refine .bind (ofFields_ensures op tag fields) ?_
  rintro b t n - - - ⟨hvalid, hname⟩
  refine .bind (P := fun _ t id => id < t.nodes.size ∧ (t.node id).name = "")
    (.step (fun _ => hvalid) (by simp [Access.perform, hname])) ?_
  rintro b u id - - - ⟨hid, hunnamed⟩
  refine .pure ⟨hid, ?_⟩
  rintro _ ⟨⟩
  exact hunnamed

/-- Finalizing a node leaves nothing to be tied. Its input is not tied already while it is being
    computed, since computing it once more would have failed. -/
theorem finalize_ensures {id : NodeId} (hid : id < s.nodes.size) :
    (finalize id).Ensures base s fun _ t _ => (t.node id).pendingInput = none := by
  refine .bind (Program.readNode_ensures id) ?_
  rintro b t n hwf - - ⟨rfl, rfl, rfl⟩
  split
  · next cell hcell =>
    refine .bind (Program.force_ensures ((hwf.node id hid).pendingInput cell hcell)) ?_
    rintro b u v - htu - ⟨-, -, hv, hfinished, hwaiting⟩
    refine .check fun input hinput => .step (fun _ => ?_) ?_
    · refine ⟨Value.asNode_valid hv hinput, cell, hwaiting id hid hcell, ?_⟩
      rw [hfinished]
      rintro ⟨⟩
    · have hin := Nat.lt_of_lt_of_le hid htu.covers.nodes
      simp [Access.perform, Store.node_modify, hin]
  · next hnone => exact .pure hnone

end Node

end NetDesc
