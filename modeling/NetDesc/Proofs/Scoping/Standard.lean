import NetDesc.Proofs.Scoping.Evaluator
import NetDesc.Render

namespace NetDesc

variable {S : Scoping} {carryOut : (c : Call) → Store → Outcome c.Reply} {base : Nat} {s : Store}

namespace Render

theorem members_maintains (spec : FormatSpec) (found : Array String)
    {named : List (String × Member)} (hnamed : ∀ p ∈ named, s.CellPlaced S base p.2.cell) :
    (members spec found named).Maintains S carryOut base s fun _ _ _ => True := by
  induction named generalizing base s found with
  | nil => exact .pure trivial
  | cons p named ih =>
    rw [List.forall_mem_cons] at hnamed
    refine .bind (Program.force_maintains hnamed.1) ?_
    rintro b t v hst hle ⟨-, -, hv⟩
    refine .bind (Program.render_maintains spec hv) fun b' u text htu hle' _ => ?_
    exact ih _ fun p hp => (hnamed.2 p hp).later (hst.trans htu hle) (Nat.le_trans hle hle')

theorem elements_maintains (spec : FormatSpec) (found : Array String) {values : List Value}
    (hvalues : ∀ v ∈ values, v.Placed S base s) :
    (elements spec found values).Maintains S carryOut base s fun _ _ _ => True := by
  induction values generalizing base s found with
  | nil => exact .pure trivial
  | cons v values ih =>
    rw [List.forall_mem_cons] at hvalues
    refine .bind (Program.render_maintains spec hvalues.1) fun b t text hst hle _ => ?_
    exact ih _ fun w hw => (hvalues.2 w hw).later hst hle

/-- To format a value is to read and force the cells in it, all of which are placed. No name is
    looked up on the way. -/
theorem value_maintains (spec : FormatSpec) {v : Value} (hv : v.Placed S base s) :
    (value spec v).Maintains S carryOut base s fun _ _ _ => True := by
  obtain ⟨payload, location, path⟩ := v
  cases payload with
  | record id =>
    refine .bind (Program.readRecord_maintains id) ?_
    rintro b t r - - ⟨rfl, rfl, rfl⟩
    have hmembers : ∀ p ∈ (t.record id).members.toList, t.CellPlaced S b p.2.cell := fun p hp =>
      (hv id List.mem_cons_self).2 p (Array.mem_toList_iff.1 hp)
    exact .bind (members_maintains spec #[] hmembers) fun _ _ _ _ _ _ => .pure trivial
  | array a =>
    have hcells : ∀ c ∈ a.cells.toList, s.CellPlaced S base c := fun c hc =>
      hv c (Array.mem_toList_iff.1 hc)
    refine .bind (Program.forceAll_maintains hcells) fun b t values _ _ hvalues => ?_
    exact .bind (elements_maintains spec #[] hvalues.1) fun _ _ _ _ _ _ => .pure trivial
  | object o => exact .step trivial fun _ => trivial
  | _ => exact .pure trivial

end Render

namespace PrintAction

theorem runtimeType_places : runtimeType.Places := by
  intro S carryOut fields location path base s hfields
  refine .bind (Program.field_maintains hfields "what") ?_
  rintro b t what - - ⟨hwhat, -⟩
  refine .bind (P := fun _ _ _ => True) ?_ fun b u text _ _ _ => ?_
  · unfold textOf
    split
    · exact .pure trivial
    · exact Program.render_maintains {} hwhat
  · refine .bind (P := fun _ _ _ => True) (.step trivial fun _ => trivial) fun _ _ _ _ _ _ => ?_
    refine .bind (P := fun _ _ _ => True) (.step trivial fun _ => trivial) fun _ _ _ _ _ _ => ?_
    exact .pure trivial

end PrintAction

namespace FailAction

theorem runtimeType_places : runtimeType.Places := by
  intro S carryOut fields location path base s hfields
  refine .bind (Program.field_maintains hfields "what") fun _ _ _ _ _ _ => ?_
  exact .check fun message _ => .raise _

end FailAction

namespace TextFunction

/-- A text function reads the fields that its selector asks for, and gives a text, in which there
    is nothing to place. -/
theorem result_maintains (what : String) (selector : Value) {arg : Value}
    (harg : arg.Placed S base s) {fields : RecordId} (hfields : s.FieldsPlaced S base fields) :
    (result what selector arg fields).Maintains S carryOut base s fun _ _ _ => True := by
  unfold result
  split
  · refine .bind (Program.field_maintains hfields _) fun b t how hst hle _ => ?_
    refine .check fun how _ => .check fun spec _ => ?_
    exact Program.render_maintains spec (harg.later hst hle)
  · refine .check fun code _ => ?_
    split
    · exact .pure trivial
    · exact .raise _
  · refine .bind (Program.field_maintains hfields _) fun _ _ _ _ _ h => .check fun _ _ => ?_
    refine .bind (Program.field_maintains h.2 _) fun _ _ _ _ _ _ => .check fun _ _ => ?_
    exact .check fun _ _ => .pure trivial
  · refine .bind (Program.field_maintains hfields _) fun _ _ _ _ _ h => ?_
    refine .bind (Program.field_maintains h.2 _) fun _ _ _ _ _ _ => .check fun _ _ => ?_
    exact .check fun _ _ => .check fun _ _ => .pure trivial
  · exact .raise _

theorem runtimeType_places : runtimeType.Places := by
  intro S carryOut fields location path base s hfields
  refine .bind (Program.field_maintains hfields "what") fun _ _ _ _ _ h => .check fun _ _ => ?_
  refine .bind (Program.field_maintains h.2 "arg") ?_
  rintro _ _ arg - - ⟨harg, hfields'⟩
  exact .bind (result_maintains _ _ harg hfields') fun _ _ _ _ _ _ => .pure trivial

end TextFunction

namespace NumericFunction

theorem runtimeType_places : runtimeType.Places := by
  intro S carryOut fields location path base s hfields
  refine .bind (Program.field_maintains hfields "what") fun _ _ _ _ _ h => .check fun _ _ => ?_
  refine .bind (Program.field_maintains h.2 "arg") fun _ _ _ _ _ _ => .check fun _ _ => ?_
  exact .pure trivial

end NumericFunction

namespace Node

theorem dimension_maintains {fields : RecordId} (hfields : s.FieldsPlaced S base fields)
    (name : String) :
    (dimension fields name).Maintains S carryOut base s fun b t _ => t.FieldsPlaced S b fields := by
  refine .bind (Program.field_maintains hfields name) fun _ _ _ _ _ h => .check fun _ _ => ?_
  split
  · exact .raise _
  · exact .pure h.2

/-- Inputs are forced one after another, and the record with the fields stays placed meanwhile. -/
theorem inputValues_maintains {fields : RecordId} (hfields : s.FieldsPlaced S base fields)
    (op : Operation) :
    (inputValues fields op).Maintains S carryOut base s fun _ _ _ => True := by
  have hcount (b : Nat) (t : Store) (values : List Value) (e : EvalError) :
      Program.Maintains S carryOut
        (if values.length = op.inputCount?.getD 0 then pure values else .raise e) b t
        fun _ _ _ => True := by
    split
    · exact .pure trivial
    · exact .raise _
  refine .bind (Program.field_maintains hfields "inputs") ?_
  rintro b t inputs - - ⟨hinputs, -⟩
  dsimp only
  split
  · next a ha =>
    have hcells : ∀ c ∈ a.cells.toList, t.CellPlaced S b c := by
      simpa [Value.Placed, ha, Payload.Placed] using hinputs
    exact .bind (Program.forceAll_maintains hcells) fun b u values _ _ _ => hcount b u values _
  · exact hcount b t [inputs] _

theorem asNodes_maintains (values : List Value) :
    (values.mapM fun v => (v.asNode : Program NodeId)).Maintains S carryOut base s
      fun _ _ _ => True := by
  induction values with
  | nil => exact .pure trivial
  | cons v values ih =>
    rw [List.mapM_cons]
    refine .check fun n _ => .bind ih fun _ _ _ _ _ _ => ?_
    exact .pure trivial

theorem inputNodes_maintains {fields : RecordId} (hfields : s.FieldsPlaced S base fields)
    (op : Operation) : (inputNodes fields op).Maintains S carryOut base s fun _ _ _ => True :=
  .bind (inputValues_maintains hfields op) fun _ _ values _ _ _ => asNodes_maintains values

/-- A node waits for the cell of one of its fields at most. -/
theorem ofFields_maintains (op : Operation) (tag : String) {fields : RecordId}
    (hfields : s.FieldsPlaced S base fields) :
    (ofFields op tag fields).Maintains S carryOut base s fun b t n =>
      ∀ c, n.pendingInput = some c → t.CellPlaced S b c := by
  cases op with
  | learnableParameter =>
    refine .bind (dimension_maintains hfields "outDim") fun _ _ _ _ _ h => ?_
    refine .bind (dimension_maintains h "inDim") fun _ _ _ _ _ _ => ?_
    exact .pure (by simp)
  | inputValue => exact .pure (by simp)
  | delay =>
    refine .bind (Program.fieldCell_maintains hfields "input") ?_
    rintro b t found - - ⟨rfl, rfl, hfound⟩
    cases found with
    | none => exact .raise _
    | some cell =>
      refine .bind (Program.field_maintains hfields "deltaT") fun b' u _ htu hle _ => ?_
      refine .check fun deltaT _ => .pure ?_
      rintro c ⟨⟩
      exact (hfound cell rfl).later htu hle
  | scale =>
    refine .bind (inputValues_maintains hfields .scale) fun _ _ _ _ _ _ => ?_
    exact .check fun pair _ => .pure (by simp)
  | rowSlice =>
    refine .bind (dimension_maintains hfields "first") fun _ _ first _ _ h => ?_
    refine .bind (dimension_maintains h "num") fun _ _ num _ _ h => ?_
    exact .bind (inputNodes_maintains h .rowSlice) fun _ _ _ _ _ _ => .pure (by simp)
  | _ => exact .bind (inputNodes_maintains hfields _) fun _ _ _ _ _ _ => .pure (by simp)

theorem selectedOperation_maintains {fields : RecordId} (hfields : s.FieldsPlaced S base fields) :
    (selectedOperation fields).Maintains S carryOut base s fun b t _ =>
      t.FieldsPlaced S b fields := by
  refine .bind (Program.field_maintains hfields "class") fun _ _ _ _ _ h => .check fun _ _ => ?_
  split
  · exact .pure h.2
  · exact .raise _

theorem tagOf_maintains {fields : RecordId} (hfields : s.FieldsPlaced S base fields) :
    (tagOf fields).Maintains S carryOut base s fun b t _ => t.FieldsPlaced S b fields := by
  refine .bind (Program.optionalField_maintains hfields "optionalTag") fun _ _ _ _ _ h => ?_
  split
  · exact .ofExcept fun _ _ => h
  · exact .pure h

theorem runtimeType_places : runtimeType.Places := by
  intro S carryOut fields location path base s hfields
  refine .bind (selectedOperation_maintains hfields) fun _ _ op _ _ h => ?_
  refine .bind (tagOf_maintains h) fun _ _ tag _ _ h => ?_
  refine .bind (ofFields_maintains op tag h) fun b t n _ _ hpending => ?_
  refine .bind (P := fun _ _ _ => True) (.step hpending fun _ => trivial) fun _ _ _ _ _ _ => ?_
  exact .pure trivial

/-- A node that waits for its input forces a placed cell, and then no longer waits. -/
theorem finalize_maintains (id : NodeId) :
    (finalize id).Maintains S carryOut base s fun _ _ _ => True := by
  refine .of_settled fun hs => .bind (Program.readNode_maintains id) ?_
  rintro b t n - - ⟨rfl, rfl, rfl⟩
  split
  · next cell hcell =>
    refine .bind (Program.force_maintains (hs.pendingInput id cell hcell)) fun _ _ _ _ _ _ => ?_
    exact .check fun input _ => .step trivial fun _ => trivial
  · exact .pure trivial

end Node

namespace Network

/-- The members of a network are forced to find the nodes to start from. Fields that were placed
    before still are. -/
theorem roots_maintains {members : List Member}
    (hmembers : ∀ m ∈ members, s.CellPlaced S base m.cell) :
    (roots members).Maintains S carryOut base s fun b t _ =>
      ∀ fields, s.FieldsPlaced S base fields → t.FieldsPlaced S b fields := by
  have hcells : ∀ c ∈ members.map (·.cell), s.CellPlaced S base c := by
    intro c hc
    obtain ⟨m, hm, rfl⟩ := List.mem_map.1 hc
    exact hmembers m hm
  exact .bind (Program.forceAll_maintains hcells) fun _ _ _ _ _ h => .pure h.2

/-- After tying, all records that there are count as sealed, since none is being made between two
    steps. -/
theorem tie_maintains (work visited : List Object) :
    (Program.tie work visited).Maintains S carryOut base s fun b t _ =>
      b = t.records.size ∧
        ∀ fields, s.FieldsPlaced S base fields → t.FieldsPlaced S b fields :=
  .of_settled fun hs => .call trivial fun _ _ _ hext _ =>
    ⟨rfl, fun _ h => h.sealed hs.base_le hext⟩

namespace Collected

/-- To collect a node is at most to give it a name, which concerns no record. -/
theorem add_maintains (c : Collected) (id : NodeId) (location : Location) :
    (c.add id location).Maintains S carryOut base s fun b _ _ => b = base := by
  have hpush (t : Store) (name : String) (unnamed : Nat) (inputs : List NodeId) :
      Program.Maintains S carryOut (if c.nodes.any (·.1 == name) then
          .raise (.invalidArgument s!"multiple nodes with the name {name}" location)
        else
          return (⟨c.nodes.push (name, id), unnamed, inputs⟩ : Collected))
        base t fun b _ _ => b = base := by
    split
    · exact .raise _
    · exact .pure rfl
  refine .bind (Program.readNode_maintains id) ?_
  rintro b t n - - ⟨rfl, rfl, rfl⟩
  by_cases hnamed : (t.node id).isNamed = true
  · simp only [hnamed, if_true]
    exact hpush t _ _ _
  · simp only [hnamed]
    refine .bind (P := fun b' _ _ => b' = b) (.step trivial fun _ => rfl) ?_
    rintro _ u - - - rfl
    exact hpush u _ _ _

theorem addAll_maintains (c : Collected) (location : Location) (ids : List NodeId) :
    (c.addAll location ids).Maintains S carryOut base s fun b _ _ => b = base := by
  induction ids generalizing c s with
  | nil => exact .pure rfl
  | cons id ids ih =>
    refine .bind (c.add_maintains id location) ?_
    rintro b t c' - - rfl
    exact ih c'

end Collected

theorem sources_maintains (location : Location) (nodes : List (String × NodeId)) :
    (sources location nodes).Maintains S carryOut base s fun b _ _ => b = base := by
  induction nodes generalizing s with
  | nil => exact .pure rfl
  | cons p nodes ih =>
    have hrest {f : Sources → Sources} :
        Program.Maintains S carryOut (do return f (← sources location nodes)) base s
          fun b _ _ => b = base :=
      .bind ih fun _ _ _ _ _ h => .pure h
    refine .bind (Program.readNode_maintains p.2) ?_
    rintro b t n - - ⟨rfl, rfl, rfl⟩
    split
    · split
      · exact hrest
      · exact hrest
      · exact .raise _
    · exact ih

/-- The record that a network is made from is sealed by then. -/
theorem ofFields_maintains {fields : RecordId} (hfields : s.FieldsPlaced S base fields)
    (location : Location) :
    (ofFields fields location).Maintains S carryOut base s fun b t n =>
      n.fields < b ∧ t.MembersPlaced S b n.fields := by
  refine .bind (Program.readRecord_maintains fields) ?_
  rintro b t r - - ⟨rfl, rfl, rfl⟩
  have hmembers : ∀ m ∈ (t.record fields).members.toList.map (·.2), t.CellPlaced S b m.cell := by
    intro m hm
    obtain ⟨p, hp, rfl⟩ := List.mem_map.1 hm
    exact hfields.2 p (Array.mem_toList_iff.1 hp)
  refine .bind (roots_maintains hmembers) fun b' u roots _ _ h => ?_
  refine .bind (tie_maintains _ _) ?_
  rintro b'' v visited - - ⟨hb, hsealed⟩
  obtain ⟨hlt, hplaced⟩ := hsealed fields (h fields hfields)
  refine .bind (Collected.addAll_maintains {} location _) ?_
  rintro _ w collected hvw - rfl
  refine .bind (sources_maintains location _) ?_
  rintro _ x sources hwx - rfl
  have hvx := hvw.trans hwx (Nat.le_refl _)
  exact .pure ⟨hb ▸ hlt, hplaced.later hvx (Nat.le_refl _) (hb ▸ hlt)⟩

theorem runtimeType_places : runtimeType.Places := by
  intro S carryOut fields location path base s hfields
  refine .bind (ofFields_maintains hfields location) fun b t n _ _ hn => ?_
  refine .bind (P := fun _ u id => id < u.networks.size) (.step hn fun _ => ?_) ?_
  · simp [Access.perform]
  · exact fun b u id _ _ hid => .pure hid

/-- A step of the search finalizes nodes and goes on with what they refer to. Neither makes a
    scope. -/
theorem tieStep_maintains (work visited : List Object) :
    (tieStep work visited).Maintains S carryOut base s fun _ _ _ => True := by
  have htie (b : Nat) (t : Store) (work visited : List Object) :
      (Program.tie work visited).Maintains S carryOut b t fun _ _ _ => True :=
    (tie_maintains work visited).imp fun _ _ _ _ _ _ => trivial
  have hvisit (b : Nat) (t : Store) (o : Object) (work visited : List Object) :
      Program.Maintains S carryOut (do
        let children ← Program.children o
        Program.tie (work ++ children.filter (!visited.contains ·)) visited) b t
        fun _ _ _ => True :=
    .bind (P := fun _ _ _ => True) (.step trivial fun _ => trivial) fun b t _ _ _ _ => htie b t _ _
  cases work with
  | nil => exact .pure trivial
  | cons o work =>
    unfold tieStep
    dsimp only
    split
    · exact htie _ _ _ _
    · split
      · exact .bind (Node.finalize_maintains _) fun b t _ _ _ _ => hvisit b t _ _ _
      · exact hvisit _ _ _ _ _

end Network

namespace Registry

/-- Every type that comes with the language leaves names to the expressions that use them: it
    reads its fields, and what it makes refers to places that are there already. -/
theorem standard_places : standard.Places := by
  intro p hp
  simp only [standard, List.mem_cons, List.not_mem_nil, or_false] at hp
  rcases hp with rfl | rfl | rfl | rfl | rfl | rfl | rfl
  · exact Node.runtimeType_places
  · exact Network.runtimeType_places
  · exact Network.runtimeType_places
  · exact TextFunction.runtimeType_places
  · exact NumericFunction.runtimeType_places
  · exact PrintAction.runtimeType_places
  · exact FailAction.runtimeType_places

end Registry

end NetDesc
