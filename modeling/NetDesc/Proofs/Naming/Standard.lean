import NetDesc.Proofs.Naming.Members
import NetDesc.Render

namespace NetDesc

variable {begun : List Computation} {carryOut : (c : Call) → Store → Outcome c.Reply}
  {inside : Call → Store → List Computation} {w : World} {tier : Tier}

/-- A check in two parts is passed if both are. -/
theorem ok_of_bind {α β : Type} {x : Except EvalError α} {f : α → Except EvalError β} {b : β}
    (h : x >>= f = .ok b) : ∃ a, x = .ok a ∧ f a = .ok b := by
  cases x with
  | ok a => exact ⟨a, rfl, h⟩
  | error e => cases h

namespace Value

variable {v : Value} (hv : v.Fits w tier)

include hv

theorem asRecord_fits {id : RecordId} (h : v.asRecord = .ok id) :
    Tier.Reaches (w.record id) tier := by
  obtain ⟨payload, location, path⟩ := v
  cases payload <;> cases h
  exact hv

theorem asArray_fits {a : LazyArray} (h : v.asArray = .ok a) :
    ∀ c ∈ a.cells, Tier.Reaches (w.cell c) tier := by
  obtain ⟨payload, location, path⟩ := v
  cases payload <;> cases h
  exact hv

theorem asFunction_fits {f : Function} (h : v.asFunction = .ok f) : f.Fits w tier := by
  obtain ⟨payload, location, path⟩ := v
  cases payload <;> cases h
  exact hv

theorem asNode_sees {id : NodeId} (h : v.asNode = .ok id) : w.SeesNode tier id := by
  obtain ⟨payload, location, path⟩ := v
  rcases payload with _ | _ | _ | _ | _ | _ | (_ | _ | _) <;> cases h
  exact hv

end Value

namespace Render

variable (hcalls : CallsUphold begun carryOut inside)

include hcalls

theorem members_upholds (spec : FormatSpec) (found : Array String)
    {named : List (String × Member)} (hnamed : ∀ p ∈ named, Tier.Reaches (w.cell p.2.cell) tier) :
    (members spec found named).Upholds begun carryOut inside w tier ∅ fun _ _ => True := by
  induction named generalizing w found with
  | nil => exact .pure trivial
  | cons p named ih =>
    rw [List.forall_mem_cons] at hnamed
    refine .bind_still (Program.force_upholds hcalls hnamed.1) fun u v _ hwu hv => ?_
    refine .bind_still (Program.render_upholds hcalls spec hv) fun u' text _ huu' _ => ?_
    exact ih _ fun p hp => huu'.reaches_cell (hwu.reaches_cell (hnamed.2 p hp))

theorem elements_upholds (spec : FormatSpec) (found : Array String) {values : List Value}
    (hvalues : ∀ v ∈ values, v.Fits w tier) :
    (elements spec found values).Upholds begun carryOut inside w tier ∅ fun _ _ => True := by
  induction values generalizing w found with
  | nil => exact .pure trivial
  | cons v values ih =>
    rw [List.forall_mem_cons] at hvalues
    refine .bind_still (Program.render_upholds hcalls spec hvalues.1) fun u text _ hlater _ => ?_
    exact ih _ fun v hv => (hvalues.2 v hv).mono hlater.toExtends

/-- Formatting gives no names: it forces cells that can be seen, whose computations answer for
    the names that they give. -/
theorem value_upholds (spec : FormatSpec) {v : Value} (hv : v.Fits w tier) :
    (value spec v).Upholds begun carryOut inside w tier ∅ fun _ _ => True := by
  obtain ⟨payload, location, path⟩ := v
  cases payload with
  | record id =>
    refine .bind_still (Program.readRecord_upholds id) ?_
    rintro u r hu - ⟨rfl, rfl⟩
    have hmembers : ∀ p ∈ (u.store.record id).members.toList,
        Tier.Reaches (u.cell p.2.cell) tier := fun p hp =>
      hu.members hv p (Array.mem_toList_iff.1 hp)
    exact .bind_still (members_upholds hcalls spec #[] hmembers) fun _ _ _ _ _ => .pure trivial
  | array a =>
    have hcells : ∀ c ∈ a.cells.toList, Tier.Reaches (w.cell c) tier := fun c hc =>
      hv c (Array.mem_toList_iff.1 hc)
    refine .bind_still (Program.forceAll_upholds hcalls hcells) fun u values _ _ hvalues => ?_
    exact .bind_still (elements_upholds hcalls spec #[] hvalues) fun _ _ _ _ _ => .pure trivial
  | object o => exact .look rfl trivial
  | _ => exact .pure trivial

end Render

namespace Registry

/-- Objects that are no nodes may be renamed. -/
theorem instantiate_upholds {t : RuntimeType} {fields : RecordId} {location : Location}
    {path : String} {P : Value → Prop}
    (ht : (t.construct fields location path).Upholds begun carryOut inside w tier ∅ fun u v =>
      v.Fits u tier ∧ P v ∧ ∀ id, v.payload ≠ .object (.node id)) :
    (instantiate t fields location path).Upholds begun carryOut inside w tier ∅ fun u v =>
      v.Fits u tier ∧ P v := by
  refine .bind_still ht fun u v _ _ ⟨hv, hP, hnode⟩ => ?_
  split
  · next o ho =>
    have hrename : ∀ id, o ≠ .node id := by
      rintro id rfl
      exact hnode id ho
    refine .bind_still (Program.rename_upholds hrename path) fun x _ _ hlater _ => ?_
    exact .pure ⟨hv.mono hlater.toExtends, hP⟩
  · exact .pure ⟨hv, hP⟩

end Registry

section Functions

variable (hcalls : CallsUphold begun carryOut inside) {fields : RecordId}
  (hfields : Tier.Reaches (w.record fields) tier) (location : Location) (path : String)

include hcalls hfields

theorem PrintAction.construct_upholds :
    (construct fields location path).Upholds begun carryOut inside w tier ∅ fun u v =>
      v.Fits u tier ∧ ¬v.HasMembers ∧ ∀ id, v.payload ≠ .object (.node id) := by
  refine .bind_still (Program.field_upholds hcalls hfields "what") fun u what _ _ hwhat => ?_
  refine .bind_still (P := fun _ _ => True) ?_ fun _ text _ _ _ => ?_
  · unfold textOf
    split
    · exact .pure trivial
    · exact Program.render_upholds hcalls {} hwhat
  · refine .bind_still (Program.print_upholds text) fun _ _ _ _ _ => ?_
    refine .bind_still (Program.newAction_upholds _) fun _ id _ _ _ => ?_
    exact .pure ⟨trivial, fun h => h.elim, by rintro _ ⟨⟩⟩

theorem FailAction.construct_upholds :
    (construct fields location path).Upholds begun carryOut inside w tier ∅ fun u v =>
      v.Fits u tier ∧ ¬v.HasMembers ∧ ∀ id, v.payload ≠ .object (.node id) := by
  refine .bind_still (Program.field_upholds hcalls hfields "what") fun _ _ _ _ _ => ?_
  exact .check fun message _ => .raise _

/-- A text function gives no names, and a text keeps nothing that could be seen. -/
theorem TextFunction.result_upholds (what : String) (selector : Value) {arg : Value}
    (harg : arg.Fits w tier) :
    (result what selector arg fields).Upholds begun carryOut inside w tier ∅ fun _ _ => True := by
  have hlater {u : World} (h : w.Later begun tier ∅ u) := h.reaches_record hfields
  unfold result
  split
  · refine .bind_still (Program.field_upholds hcalls hfields _) fun u how _ h _ => ?_
    refine .check fun how _ => .check fun spec _ => ?_
    exact Program.render_upholds hcalls spec (harg.mono h.toExtends)
  · refine .check fun code _ => ?_
    split
    · exact .pure trivial
    · exact .raise _
  · refine .bind_still (Program.field_upholds hcalls hfields _) fun _ _ _ h _ => ?_
    refine .check fun _ _ => ?_
    refine .bind_still (Program.field_upholds hcalls (hlater h) _) fun _ _ _ _ _ => ?_
    exact .check fun _ _ => .check fun _ _ => .pure trivial
  · refine .bind_still (Program.field_upholds hcalls hfields _) fun _ _ _ h _ => ?_
    refine .bind_still (Program.field_upholds hcalls (hlater h) _) fun _ _ _ _ _ => ?_
    exact .check fun _ _ => .check fun _ _ => .check fun _ _ => .pure trivial
  · exact .raise _

theorem TextFunction.construct_upholds :
    (construct fields location path).Upholds begun carryOut inside w tier ∅ fun u v =>
      v.Fits u tier ∧ ¬v.HasMembers ∧ ∀ id, v.payload ≠ .object (.node id) := by
  refine .bind_still (Program.field_upholds hcalls hfields "what") fun u what _ hwu _ => ?_
  refine .check fun _ _ => ?_
  have hu := hwu.reaches_record hfields
  refine .bind_still (Program.field_upholds hcalls hu "arg") fun v arg _ huv harg => ?_
  refine .bind_still (result_upholds hcalls (huv.reaches_record hu) _ what harg) ?_
  exact fun _ _ _ _ _ => .pure ⟨trivial, fun h => h.elim, by rintro _ ⟨⟩⟩

theorem NumericFunction.construct_upholds :
    (construct fields location path).Upholds begun carryOut inside w tier ∅ fun u v =>
      v.Fits u tier ∧ ¬v.HasMembers ∧ ∀ id, v.payload ≠ .object (.node id) := by
  refine .bind_still (Program.field_upholds hcalls hfields "what") fun _ _ _ h _ => ?_
  refine .check fun _ _ => ?_
  refine .bind_still (Program.field_upholds hcalls (h.reaches_record hfields) "arg") ?_
  intro _ _ _ _ _
  exact .check fun _ _ => .pure ⟨trivial, fun h => h.elim, by rintro _ ⟨⟩⟩

end Functions

namespace Node

section Fields

variable (hcalls : CallsUphold begun carryOut inside) {fields : RecordId}
  (hfields : Tier.Reaches (w.record fields) tier)

include hcalls hfields

theorem dimension_upholds (name : String) :
    (dimension fields name).Upholds begun carryOut inside w tier ∅ fun _ _ => True := by
  refine .bind_still (Program.field_upholds hcalls hfields name) fun _ _ _ _ _ => ?_
  refine .check fun _ _ => ?_
  split
  · exact .raise _
  · exact .pure trivial

/-- The inputs can be seen from the record with the fields, whether they are listed or given
    alone. -/
theorem inputValues_upholds (op : Operation) :
    (inputValues fields op).Upholds begun carryOut inside w tier ∅ fun u values =>
      ∀ v ∈ values, v.Fits u tier := by
  have hcount {u : World} {values : List Value} (hvalues : ∀ v ∈ values, v.Fits u tier)
      (e : EvalError) : Program.Upholds begun carryOut inside
        (if values.length = op.inputCount?.getD 0 then pure values else .raise e) u tier ∅
        fun u values => ∀ v ∈ values, v.Fits u tier := by
    split
    · exact .pure hvalues
    · exact .raise _
  refine .bind_still (Program.field_upholds hcalls hfields "inputs") fun u inputs _ _ hinputs => ?_
  dsimp only
  split
  · next a ha =>
    have hcells : ∀ c ∈ a.cells.toList, Tier.Reaches (u.cell c) tier := by
      simpa [Value.Fits, ha, Payload.Fits] using hinputs
    exact .bind_still (Program.forceAll_upholds hcalls hcells) fun _ _ _ _ hvalues =>
      hcount hvalues _
  · exact hcount (by simpa using hinputs) _

omit hcalls hfields in
theorem asNodes_upholds {values : List Value} (hvalues : ∀ v ∈ values, v.Fits w tier) :
    (values.mapM fun v => (v.asNode : Program NodeId)).Upholds begun carryOut inside w tier ∅
      fun u inputs => ∀ id ∈ inputs, u.SeesNode tier id := by
  induction values generalizing w with
  | nil => exact .pure (by simp)
  | cons v values ih =>
    rw [List.forall_mem_cons] at hvalues
    rw [List.mapM_cons]
    refine .check fun id hid => .bind_still (ih hvalues.2) fun u ids _ hlater hids => .pure ?_
    rw [List.forall_mem_cons]
    exact ⟨hlater.seesNode (Value.asNode_sees hvalues.1 hid), hids⟩

theorem inputNodes_upholds (op : Operation) :
    (inputNodes fields op).Upholds begun carryOut inside w tier ∅ fun u inputs =>
      ∀ id ∈ inputs, u.SeesNode tier id :=
  .bind_still (inputValues_upholds hcalls hfields op) fun _ _ _ _ hvalues => asNodes_upholds hvalues

omit hcalls hfields in
theorem mapM_asNode_sees {values : List Value} (hvalues : ∀ v ∈ values, v.Fits w tier)
    {inputs : List NodeId} (h : values.mapM Value.asNode = .ok inputs) :
    ∀ id ∈ inputs, w.SeesNode tier id := by
  induction values generalizing inputs with
  | nil =>
    cases h
    simp
  | cons v values ih =>
    rw [List.forall_mem_cons] at hvalues
    rw [List.mapM_cons] at h
    obtain ⟨id, hid, h⟩ := ok_of_bind h
    obtain ⟨ids, hids, h⟩ := ok_of_bind h
    cases h
    rw [List.forall_mem_cons]
    exact ⟨Value.asNode_sees hvalues.1 hid, ih hvalues.2 hids⟩

omit hcalls hfields in
theorem scaleInputs_sees {values : List Value} (hvalues : ∀ v ∈ values, v.Fits w tier)
    {factor : Float} {inputs : List NodeId} (h : scaleInputs values = .ok (factor, inputs)) :
    ∀ id ∈ inputs, w.SeesNode tier id := by
  cases values with
  | nil =>
    cases h
    simp
  | cons v values =>
    rw [List.forall_mem_cons] at hvalues
    rw [scaleInputs] at h
    obtain ⟨x, -, h⟩ := ok_of_bind h
    obtain ⟨ids, hids, h⟩ := ok_of_bind h
    cases h
    exact mapM_asNode_sees hvalues.2 hids

/-- A node refers to what can be seen from its fields. -/
theorem ofFields_upholds (op : Operation) (tag : String) :
    (ofFields op tag fields).Upholds begun carryOut inside w tier ∅ fun u n => n.Fits u tier := by
  have hlater {u : World} (h : w.Later begun tier ∅ u) := h.reaches_record hfields
  cases op with
  | learnableParameter =>
    refine .bind_still (dimension_upholds hcalls hfields "outDim") fun _ _ _ h _ => ?_
    refine .bind_still (dimension_upholds hcalls (hlater h) "inDim") fun _ _ _ _ _ => ?_
    exact .pure ⟨by simp, by simp⟩
  | inputValue => exact .pure ⟨by simp, by simp⟩
  | delay =>
    refine .bind_still (Program.fieldCell_upholds hfields "input") ?_
    rintro u found - - ⟨rfl, hfound⟩
    cases found with
    | none => exact .raise _
    | some cell =>
      refine .bind_still (Program.field_upholds hcalls hfields "deltaT") fun v _ _ h _ => ?_
      refine .check fun deltaT _ => .pure ⟨by simp, ?_⟩
      rintro c ⟨⟩
      exact h.reaches_cell (hfound cell rfl)
  | scale =>
    refine .bind_still (inputValues_upholds hcalls hfields .scale) fun u values _ _ hvalues => ?_
    exact .check fun pair hpair => .pure ⟨scaleInputs_sees hvalues hpair, by simp⟩
  | rowSlice =>
    refine .bind_still (dimension_upholds hcalls hfields "first") fun u first _ hwu _ => ?_
    refine .bind_still (dimension_upholds hcalls (hlater hwu) "num") fun v num _ huv _ => ?_
    refine .bind_still (inputNodes_upholds hcalls (hlater (hwu.trans huv)) .rowSlice) ?_
    exact fun _ _ _ _ hinputs => .pure ⟨hinputs, by simp⟩
  | _ =>
    exact .bind_still (inputNodes_upholds hcalls hfields _) fun _ _ _ _ hinputs =>
      .pure ⟨hinputs, by simp⟩

theorem selectedOperation_upholds :
    (selectedOperation fields).Upholds begun carryOut inside w tier ∅ fun _ _ => True := by
  refine .bind_still (Program.field_upholds hcalls hfields "class") fun _ _ _ _ _ => ?_
  refine .check fun _ _ => ?_
  split
  · exact .pure trivial
  · exact .raise _

theorem tagOf_upholds :
    (tagOf fields).Upholds begun carryOut inside w tier ∅ fun _ _ => True := by
  refine .bind_still (Program.optionalField_upholds hcalls hfields "optionalTag") ?_
  intro _ _ _ _ _
  split
  · exact .ofExcept fun _ _ => trivial
  · exact .pure trivial

end Fields

/-- A node that is made and named right away, after the path at which it is made. -/
def makeNamed (n : Node) (location : Location) (path : String) : Program Value := do
  let id ← Program.newNode n
  Program.rename (.node id) path
  return .object (.node id) location path

/-- Nodes are named as soon as they have been made. -/
theorem instantiate_eq (fields : RecordId) (location : Location) (path : String) :
    Registry.instantiate runtimeType fields location path = (do
      let op ← selectedOperation fields
      let tag ← tagOf fields
      let n ← ofFields op tag fields
      makeNamed n location path) := by
  simp only [Registry.instantiate, runtimeType, construct, makeNamed, bind_assoc, pure_bind]
  rfl

/-- The new node is the only one with the name of its path, which was free and is used up from
    then on. An empty path is no name, so such a node stays unnamed. -/
theorem makeNamed_upholds {n : Node} (hn : n.Fits w tier) (location : Location) {path : String}
    (hfree : World.Free begun w tier path) :
    (makeNamed n location path).Upholds begun carryOut inside w tier {path} fun u v =>
      (v.Fits u tier ∨ path = "") ∧ ¬v.HasMembers := by
  have hcalls : (makeNamed n location path).Calls fun _ => False := fun _ _ => trivial
  intro hw hcurrent _
  have hstore : (w.store.nodes.push n).modify w.store.nodes.size ({ · with name := path }) =
      w.store.nodes.push { n with name := path } := by
    grind
  let u := w.addNode { n with name := path } tier
  refine ⟨⟨u, ?_, hw.addNode hcurrent.numbered ⟨hn.inputs, hn.pending⟩ hfree,
    hw.addNode_later rfl, Nat.le_add_right _ _, ?_, fun h => h.elim⟩,
    fun c next t hreach => (hcalls.reaches hreach).elim⟩
  · simp only [u, World.addNode, hstore]
  · by_cases hpath : path = ""
    · exact .inr hpath
    · exact .inl (World.addNode_sees hpath)

/-- To make a node uses up its path. The fields are forced before that, by computations with
    paths of their own. -/
theorem instantiate_upholds (hcalls : CallsUphold begun carryOut inside) {fields : RecordId}
    (hfields : Tier.Reaches (w.record fields) tier) (location : Location) {path : String}
    (hfree : World.Free begun w tier path) :
    (Registry.instantiate runtimeType fields location path).Upholds begun carryOut inside w tier
      {path} fun u v => (v.Fits u tier ∨ path = "") ∧ ¬v.HasMembers := by
  rw [instantiate_eq]
  refine .bind_still (selectedOperation_upholds hcalls hfields) fun u op _ hwu _ => ?_
  refine .bind_still (tagOf_upholds hcalls (hwu.reaches_record hfields)) fun v tag _ huv _ => ?_
  have hwv := hwu.trans huv
  refine .bind_still (ofFields_upholds hcalls (hwv.reaches_record hfields) op tag) ?_
  intro x n _ hvx hn
  exact makeNamed_upholds hn location ((hwv.trans hvx).free hfree (Set.notMem_empty _))

/-- The input of a delay can be seen from where the delay was made. -/
theorem finalize_upholds (hcalls : CallsUphold begun carryOut inside) {id : NodeId}
    (hid : w.SeesNode tier id) :
    (finalize id).Upholds begun carryOut inside w tier ∅ fun _ _ => True := by
  obtain ⟨⟨k, hk, hle⟩, -⟩ := hid
  refine .bind_still (Program.readNode_upholds id) ?_
  rintro u n hu - ⟨rfl, rfl⟩
  split
  · next cell hcell =>
    obtain ⟨l, hl, hlk⟩ := (hu.node id k hk).2.2.pending cell hcell
    have hforce : (Program.force cell).Upholds begun carryOut inside u tier ∅ fun v x =>
        x.Fits v k :=
      .call hcalls ⟨l, hl, hlk.trans hle⟩ fun v x _ _ hx =>
        (hx l hl).seen ((World.Extends.refl v).shows hlk)
    refine .bind_still hforce fun v x _ huv hx => .check fun input hinput => ?_
    refine .step fun hv _ => ?_
    obtain ⟨hsound, hlater⟩ := hv.tieInput (huv.node id k hk) (Value.asNode_sees hx hinput)
    exact ⟨_, rfl, hsound, hlater.nowhere, rfl, trivial⟩
  · exact .pure trivial

end Node

end NetDesc
