import NetDesc.Proofs.Matching.Evaluator
import NetDesc.Render
import NetDesc.Standard

namespace NetDesc

open Program (ChecksCorrespond)

variable {K : Comparison} {m : Matching}

namespace Render

variable (hordered : K.ordered) (spec : FormatSpec)

include hordered

/-- The members are formatted in the order in which the records list them, so this takes for
    granted that the order of declarations is the same. -/
theorem members_corresponds (found : Array String) {entries entries' : List (String × Member)}
    (h : List.Forall₂ (Member.CorrespondsNamed m) entries entries') :
    (members spec found entries).CorrespondsEq K m (members spec found entries') := by
  induction entries generalizing m found entries' with
  | nil =>
    cases h
    exact .pure rfl
  | cons entry entries ih =>
    cases h with
    | @cons _ entry' _ entries' hentry hentries =>
      obtain ⟨name, x⟩ := entry
      obtain ⟨name', y⟩ := entry'
      obtain rfl : name = name' := hentry.name
      refine .bind (Program.force_corresponds hentry.member.cell) fun n v w hmn hvw => ?_
      refine .bind_eq (Program.render_corresponds hordered spec hvw) fun u text hnu => ?_
      exact ih _ (hentries.imp fun _ _ hx => ⟨hx.name, hx.member.mono (le_trans hmn hnu)⟩)

theorem elements_corresponds (found : Array String) {vs ws : List Value}
    (h : List.Forall₂ (Value.Corresponds K m) vs ws) :
    (elements spec found vs).CorrespondsEq K m (elements spec found ws) := by
  induction vs generalizing m found ws with
  | nil =>
    cases h
    exact .pure rfl
  | cons v vs ih =>
    cases h with
    | cons hv hvs =>
      exact .bind_eq (Program.render_corresponds hordered spec hv) fun n text hmn =>
        ih _ (Value.forall₂_mono hmn hvs)

/-- Values that correspond have the same text: their parts do, one by one, and where values
    themselves are places, these are described alike. -/
theorem value_corresponds {v w : Value} (h : v.Corresponds K m w) :
    (value spec v).CorrespondsEq K m (value spec w) := by
  obtain ⟨x, l, path⟩ := v
  obtain ⟨y, l', path'⟩ := w
  cases h.payload with
  | number x => exact .pure rfl
  | text s => exact .pure rfl
  | truth b => exact .pure rfl
  | record hij =>
    refine .bind (Program.readRecord_corresponds hij) fun n r k hmn hrk => ?_
    exact .bind_eq (members_corresponds hordered spec #[] (hrk.members hordered))
      fun _ texts _ => .pure rfl
  | array hab =>
    refine .bind (Program.forceAll_corresponds hab.cells) fun n vs ws hmn hvs => ?_
    exact .bind_eq (elements_corresponds hordered spec #[] hvs) fun _ texts _ => .pure rfl
  | function hf => exact .pure (by rw [hf.name])
  | object ho => exact Program.describe_corresponds ho

end Render

/-- A check that is made without looking at any value. -/
theorem Program.ChecksCorrespond.refl {α : Type} (x : Except EvalError α) :
    ChecksCorrespond Eq x x := by
  cases x with
  | ok a => exact .ok rfl
  | error e => exact .error e

namespace PrintAction

/-- A text is printed as it is, and anything else as it is formatted. -/
theorem textOf_corresponds (hordered : K.ordered) {v w : Value} (h : v.Corresponds K m w) :
    (textOf v).CorrespondsEq K m (textOf w) := by
  have hrender := Program.render_corresponds hordered {} h
  obtain ⟨x, l, path⟩ := v
  obtain ⟨y, l', path'⟩ := w
  cases h.payload with
  | text s => exact .pure rfl
  | _ => exact hrender

theorem corresponds (hordered : K.ordered) : runtimeType.Corresponds K := by
  intro m r k hrk location path
  refine .bind (Program.field_corresponds hrk "what") fun n v w hmn hvw => ?_
  refine .bind_eq (textOf_corresponds hordered hvw) fun _ text _ => ?_
  refine .bind_eq (Program.print_corresponds text) fun _ _ _ => ?_
  exact .bind (Program.newAction_corresponds { text }) fun _ _ _ _ haction =>
    .pure ⟨.object (.action haction), rfl, rfl⟩

end PrintAction

theorem FailAction.corresponds : FailAction.runtimeType.Corresponds K := by
  intro m r k hrk location path
  refine .bind (Program.field_corresponds hrk "what") fun n v w hmn hvw => ?_
  exact .check_eq hvw.asText fun message => .raise _

namespace TextFunction

/-- A text function reads the same fields in the same order on both sides, and computes a text
    from scalars, which are equal. -/
theorem result_corresponds (hordered : K.ordered) (what : String)
    {selector selector' arg arg' : Value} (hselector : selector.Corresponds K m selector')
    (harg : arg.Corresponds K m arg') {r k : RecordId} (hrk : m .record r k) :
    (result what selector arg r).CorrespondsEq K m (result what selector' arg' k) := by
  unfold result
  rw [hselector.location, harg.location]
  split
  · refine .bind (Program.field_corresponds hrk "how") fun n v w hmn hvw => ?_
    refine .check_eq hvw.asText fun how => ?_
    refine .check_eq (.refl _) fun spec => ?_
    exact Program.render_corresponds hordered spec (harg.mono hmn)
  · refine .check_eq harg.asIndex fun code => ?_
    cases character? code with
    | some c => exact .pure rfl
    | none => exact .raise _
  · refine .bind (Program.field_corresponds hrk "pos") fun n v w hmn hvw => ?_
    refine .check_eq hvw.asIndex fun pos => ?_
    refine .bind (Program.field_corresponds (hmn _ _ _ hrk) "chars") fun u v w hnu hvw => ?_
    refine .check_eq hvw.asIndex fun count => ?_
    exact .check_eq (harg.mono (le_trans hmn hnu)).asText fun s => .pure rfl
  · refine .bind (Program.field_corresponds hrk "replacewhat") fun n v w hmn hwhat => ?_
    refine .bind (Program.field_corresponds (hmn _ _ _ hrk) "withwhat")
      fun u v w hnu hreplacement => ?_
    refine .check_eq (harg.mono (le_trans hmn hnu)).asText fun s => ?_
    refine .check_eq (hwhat.mono hnu).asText fun what => ?_
    exact .check_eq hreplacement.asText fun replacement => .pure rfl
  · exact .raise _

theorem corresponds (hordered : K.ordered) : runtimeType.Corresponds K := by
  intro m r k hrk location path
  refine .bind (Program.field_corresponds hrk "what") fun n selector selector' hmn hselector => ?_
  refine .check_eq hselector.asText fun what => ?_
  refine .bind (Program.field_corresponds (hmn _ _ _ hrk) "arg") fun u arg arg' hnu harg => ?_
  exact .bind_eq (result_corresponds hordered what (hselector.mono hnu) harg
    (hnu _ _ _ (hmn _ _ _ hrk))) fun _ s _ => .pure ⟨.text s, rfl, rfl⟩

end TextFunction

namespace NumericFunction

/-- Arrays that correspond are of the same size, so their lengths are equal even if their cells
    are at other places. -/
theorem length_corresponds {arg arg' : Value} (harg : arg.Corresponds K m arg') :
    ChecksCorrespond Eq (length arg) (length arg') := by
  have hmismatch := harg.mismatch (Q := @Eq Nat) "string or array"
  obtain ⟨x, l, path⟩ := arg
  obtain ⟨y, l', path'⟩ := arg'
  cases harg.payload with
  | text s => exact .ok rfl
  | array hab => exact .ok (by simpa [LazyArray.size] using hab.cells.length_eq)
  | _ => exact hmismatch

theorem result_corresponds (what : String) {selector selector' arg arg' : Value}
    (hselector : selector.Corresponds K m selector') (harg : arg.Corresponds K m arg') :
    ChecksCorrespond Eq (result what selector arg) (result what selector' arg') := by
  unfold result
  rw [hselector.location]
  split
  · exact .bind_eq harg.asNumber fun x => .ok rfl
  · exact .bind_eq (length_corresponds harg) fun n => .ok rfl
  · exact .error _

theorem corresponds : runtimeType.Corresponds K := by
  intro m r k hrk location path
  refine .bind (Program.field_corresponds hrk "what") fun n selector selector' hmn hselector => ?_
  refine .check_eq hselector.asText fun what => ?_
  refine .bind (Program.field_corresponds (hmn _ _ _ hrk) "arg") fun u arg arg' hnu harg => ?_
  exact .check_eq (result_corresponds what (hselector.mono hnu) harg) fun x =>
    .pure ⟨.number x, rfl, rfl⟩

end NumericFunction

namespace Node

section Fields

variable {r k : RecordId} (hrk : m .record r k)

include hrk

theorem dimension_corresponds (name : String) :
    (dimension r name).CorrespondsEq K m (dimension k name) := by
  refine .bind (Program.field_corresponds hrk name) fun n v w hmn hvw => ?_
  refine .check_eq hvw.asIndex fun count => ?_
  rw [hvw.location]
  exact .ite Iff.rfl (.raise _) (.pure rfl)

theorem inputValues_corresponds (op : Operation) :
    (inputValues r op).Corresponds K m (fun n => List.Forall₂ (Value.Corresponds K n))
      (inputValues k op) := by
  have hcount {n : Matching} {vs ws : List Value}
      (hvs : List.Forall₂ (Value.Corresponds K n) vs ws) (location : Location)
      (message : Nat → String) :
      Program.Corresponds K n (fun n => List.Forall₂ (Value.Corresponds K n))
        (if vs.length = op.inputCount?.getD 0 then pure vs
          else .raise (.invalidArgument (message vs.length) location))
        (if ws.length = op.inputCount?.getD 0 then pure ws
          else .raise (.invalidArgument (message ws.length) location)) := by
    rw [hvs.length_eq]
    exact .ite Iff.rfl (.pure hvs) (.raise _)
  let message (count : Nat) :=
    let counts := s!"expected {op.inputCount?.getD 0}, got {count}"
    s!"unexpected number of inputs to ComputationNode class {op.className}: {counts}"
  refine .bind (Program.field_corresponds hrk "inputs") fun n v w hmn hvw => ?_
  rw [hvw.location]
  have hsingle := hcount (.cons hvw .nil) w.location message
  obtain ⟨x, l, path⟩ := v
  obtain ⟨y, l', path'⟩ := w
  cases hvw.payload with
  | array hab =>
    exact .bind (Program.forceAll_corresponds hab.cells) fun u vs ws hnu hvs =>
      hcount hvs l' message
  | _ => exact hsingle

omit hrk in
theorem asNodes_corresponds {vs ws : List Value} (h : List.Forall₂ (Value.Corresponds K m) vs ws) :
    (vs.mapM fun v => (liftM v.asNode : Program NodeId)).Corresponds K m
      (fun n => List.Forall₂ (n .node)) (ws.mapM fun v => (liftM v.asNode : Program NodeId)) := by
  induction h with
  | nil => exact .pure .nil
  | cons hv _ ih =>
    simp only [List.mapM_cons]
    refine .check hv.asNode fun i j hij => ?_
    exact .bind ih fun _ _ _ hmn his => .pure (.cons (hmn _ _ _ hij) his)

theorem inputNodes_corresponds (op : Operation) :
    (inputNodes r op).Corresponds K m (fun n => List.Forall₂ (n .node)) (inputNodes k op) :=
  .bind (inputValues_corresponds hrk op) fun _ _ _ _ hvs => asNodes_corresponds hvs

omit hrk in
theorem mapM_asNode_corresponds {vs ws : List Value}
    (h : List.Forall₂ (Value.Corresponds K m) vs ws) :
    ChecksCorrespond (List.Forall₂ (m .node)) (vs.mapM Value.asNode) (ws.mapM Value.asNode) := by
  induction h with
  | nil => exact .ok .nil
  | cons hv _ ih =>
    simp only [List.mapM_cons]
    exact .bind hv.asNode fun i j hij => .bind ih fun is js his => .ok (.cons hij his)

omit hrk in
theorem scaleInputs_corresponds {vs ws : List Value}
    (h : List.Forall₂ (Value.Corresponds K m) vs ws) :
    ChecksCorrespond (fun a b => a.1 = b.1 ∧ List.Forall₂ (m .node) a.2 b.2) (scaleInputs vs)
      (scaleInputs ws) := by
  cases h with
  | nil => exact .ok ⟨rfl, .nil⟩
  | cons hfactor hinputs =>
    exact .bind_eq hfactor.asNumber fun x =>
      .bind (mapM_asNode_corresponds hinputs) fun is js his => .ok ⟨rfl, his⟩

/-- Nodes of the same class and settings, whose inputs correspond. A delay is made with the cell
    of its input, and the cells of both sides correspond as well. -/
theorem ofFields_corresponds (op : Operation) (tag : String) :
    (ofFields op tag r).Corresponds K m Node.Corresponds (ofFields op tag k) := by
  have hinputs : Program.Corresponds K m Node.Corresponds
      (do
        let inputs ← inputNodes r op
        return ({ operation := op, tag, inputs } : Node))
      (do
        let inputs ← inputNodes k op
        return { operation := op, tag, inputs }) :=
    .bind (inputNodes_corresponds hrk op) fun _ _ _ _ his =>
      .pure ⟨rfl, rfl, rfl, rfl, his, .none⟩
  cases op with
  | learnableParameter =>
    refine .bind_eq (dimension_corresponds hrk "outDim") fun n outDim hmn => ?_
    exact .bind_eq (dimension_corresponds (hmn _ _ _ hrk) "inDim") fun _ inDim _ =>
      .pure ⟨rfl, rfl, rfl, rfl, .nil, .none⟩
  | inputValue => exact .pure ⟨rfl, rfl, rfl, rfl, .nil, .none⟩
  | delay =>
    refine .bind (Program.fieldCell_corresponds hrk "input") fun n found found' hmn hfound => ?_
    cases hfound with
    | none => exact .raise _
    | some hinput =>
      refine .bind (Program.field_corresponds (hmn _ _ _ hrk) "deltaT") fun u v w hnu hvw => ?_
      exact .check_eq hvw.asIndex fun deltaT =>
        .pure ⟨rfl, rfl, rfl, rfl, .nil, .some (hnu _ _ _ hinput)⟩
  | scale =>
    refine .bind (inputValues_corresponds hrk .scale) fun n vs ws hmn hvs => ?_
    refine .check (scaleInputs_corresponds hvs) fun a b hab => ?_
    obtain ⟨factor, is⟩ := a
    obtain ⟨factor', js⟩ := b
    obtain ⟨rfl, his⟩ : factor = factor' ∧ List.Forall₂ (n .node) is js := hab
    exact .pure ⟨rfl, rfl, rfl, rfl, his, .none⟩
  | rowSlice =>
    refine .bind_eq (dimension_corresponds hrk "first") fun n first hmn => ?_
    have hrk' := hmn _ _ _ hrk
    refine .bind_eq (dimension_corresponds hrk' "num") fun u num hnu => ?_
    exact .bind (inputNodes_corresponds (hnu _ _ _ hrk') .rowSlice) fun _ _ _ _ his =>
      .pure ⟨rfl, rfl, rfl, rfl, his, .none⟩
  | _ => exact hinputs

theorem selectedOperation_corresponds :
    (selectedOperation r).CorrespondsEq K m (selectedOperation k) := by
  refine .bind (Program.field_corresponds hrk "class") fun n v w hmn hvw => ?_
  refine .check_eq hvw.asText fun className => ?_
  rw [hvw.location]
  cases Operation.ofClass? className with
  | some op => exact .pure rfl
  | none => exact .raise _

theorem tagOf_corresponds : (tagOf r).CorrespondsEq K m (tagOf k) := by
  refine .bind (Program.optionalField_corresponds hrk "optionalTag") fun n found found' hmn h => ?_
  cases h with
  | some hvw => exact .ofExcept hvw.asText
  | none => exact .pure rfl

end Fields

/-- A node is made at the end of the node table on either side, and from then on these two places
    correspond. -/
theorem corresponds : runtimeType.Corresponds K := by
  intro m r k hrk location path
  refine .bind_eq (selectedOperation_corresponds hrk) fun n op hmn => ?_
  have hrk' := hmn _ _ _ hrk
  refine .bind_eq (tagOf_corresponds hrk') fun u tag hnu => ?_
  refine .bind (ofFields_corresponds (hnu _ _ _ hrk') op tag) fun _ x y _ hxy => ?_
  exact .bind (Program.newNode_corresponds hxy) fun _ _ _ _ hnode =>
    .pure ⟨.object (.node hnode), rfl, rfl⟩

/-- A node waits for its input iff the one it corresponds to does, and then both force cells that
    correspond. -/
theorem finalize_corresponds {i j : NodeId} (hij : m .node i j) :
    (finalize i).CorrespondsEq K m (finalize j) := by
  refine .bind (Program.readNode_corresponds hij) fun n x y hmn hxy => ?_
  have hpending := hxy.pendingInput
  generalize x.pendingInput = c at hpending ⊢
  generalize y.pendingInput = d at hpending ⊢
  cases hpending with
  | none => exact .pure rfl
  | some hcd =>
    refine .bind (Program.force_corresponds hcd) fun u v w hnu hvw => ?_
    exact .check hvw.asNode fun input input' hinput =>
      Program.tieInput_corresponds (hnu _ _ _ (hmn _ _ _ hij)) hinput

end Node

/-- Lists that are related one to one contain what is related, or do not. -/
theorem contains_eq_of_forall₂ {α β : Type} [DecidableEq α] [DecidableEq β] {R : α → β → Prop}
    (hunique : ∀ {a b c d}, R a b → R c d → (a = c ↔ b = d)) {xs : List α} {ys : List β}
    (h : List.Forall₂ R xs ys) {a : α} {b : β} (hab : R a b) : xs.contains a = ys.contains b := by
  induction h with
  | nil => simp
  | cons hxy _ ih =>
    rw [List.contains_cons, List.contains_cons, ih, beq_eq_beq.2 (hunique hab hxy)]

namespace Object

variable {s t : Store}

/-- An object is among those visited iff the one it corresponds to is. -/
theorem contains_eq (h : s.Corresponds K m t) {os us : List Object}
    (hos : List.Forall₂ (Object.Corresponds m) os us) {o u : Object} (ho : o.Corresponds m u) :
    os.contains o = us.contains u :=
  contains_eq_of_forall₂ (fun ho hu => h.object_eq_iff ho hu) hos ho

theorem filter_corresponds (h : s.Corresponds K m t) {visited visited' : List Object}
    (hvisited : List.Forall₂ (Object.Corresponds m) visited visited') {os us : List Object}
    (hos : List.Forall₂ (Object.Corresponds m) os us) :
    List.Forall₂ (Object.Corresponds m) (os.filter (!visited.contains ·))
      (us.filter (!visited'.contains ·)) := by
  induction hos with
  | nil => simp
  | @cons x y os us hxy _ ih =>
    rw [List.filter_cons, List.filter_cons, contains_eq h hvisited hxy]
    split
    · exact .cons hxy ih
    · exact ih

theorem forall₂_mono {n : Matching} (hmn : m ≤ n) {os us : List Object}
    (h : List.Forall₂ (Object.Corresponds m) os us) : List.Forall₂ (Object.Corresponds n) os us :=
  h.imp fun _ _ ho => ho.mono hmn

end Object

namespace Network

/-- One step of the search on either side. That lists contain corresponding objects at the same
    positions is kept, since an object has been visited iff its counterpart has been. -/
theorem tieStep_corresponds {work work' visited visited' : List Object}
    (hwork : List.Forall₂ (Object.Corresponds m) work work')
    (hvisited : List.Forall₂ (Object.Corresponds m) visited visited') :
    (tieStep work visited).Corresponds K m (fun n => List.Forall₂ (Object.Corresponds n))
      (tieStep work' visited') := by
  cases hwork with
  | nil => exact .pure hvisited
  | @cons o u work work' ho hwork =>
    have hrest {n : Matching} (hmn : m ≤ n) : Program.Corresponds K n
        (fun n => List.Forall₂ (Object.Corresponds n))
        (do
          let children ← Program.children o
          Program.tie (work ++ children.filter (!(visited ++ [o]).contains ·)) (visited ++ [o]))
        (do
          let children ← Program.children u
          Program.tie (work' ++ children.filter (!(visited' ++ [u]).contains ·))
            (visited' ++ [u])) := by
      refine .bind (Program.children_corresponds (ho.mono hmn)) fun x os us hnx hos => ?_
      have hmx := le_trans hmn hnx
      have hvisited' := List.rel_append (Object.forall₂_mono hmx hvisited)
        (.cons (ho.mono hmx) .nil)
      refine .of_store fun hst => ?_
      exact Program.tie_corresponds (List.rel_append (Object.forall₂_mono hmx hwork)
        (Object.filter_corresponds hst hvisited' hos)) hvisited'
    refine .of_store fun hst => ?_
    refine .ite (by rw [Object.contains_eq hst hvisited ho])
      (Program.tie_corresponds hwork hvisited) ?_
    cases ho with
    | node hij => exact .bind_eq (Node.finalize_corresponds hij) fun _ _ hmn => hrest hmn
    | _ => exact hrest le_rfl

theorem roots_corresponds {members members' : List Member}
    (h : List.Forall₂ (Member.Corresponds m) members members') :
    (roots members).Corresponds K m (fun n => List.Forall₂ (n .node)) (roots members') := by
  have hcells : List.Forall₂ (m .cell) (members.map (·.cell)) (members'.map (·.cell)) :=
    List.forall₂_map_left_iff.2 (List.forall₂_map_right_iff.2 (h.imp fun _ _ hm => hm.cell))
  refine .bind (Program.forceAll_corresponds hcells) fun n vs ws _ hvs => .pure ?_
  induction hvs with
  | nil => exact .nil
  | @cons v w vs ws hv _ ih =>
    obtain ⟨x, l, path⟩ := v
    obtain ⟨y, l', path'⟩ := w
    rw [List.filterMap_cons, List.filterMap_cons]
    cases hv.payload with
    | object ho =>
      cases ho with
      | node hij => exact .cons hij ih
      | _ => exact ih
    | _ => exact ih

/-- The same names for nodes that correspond. -/
structure Collected.Corresponds (m : Matching) (c d : Collected) : Prop where
  nodes : List.Forall₂ (fun x y => x.1 = y.1 ∧ m .node x.2 y.2) c.nodes.toList d.nodes.toList
  unnamed : c.unnamed = d.unnamed
  inputs : List.Forall₂ (m .node) c.inputs d.inputs

namespace Collected

/-- A name is taken on one side iff it is on the other. -/
theorem any_eq {c d : Collected} (h : c.Corresponds m d) (name : String) :
    c.nodes.any (·.1 == name) = d.nodes.any (·.1 == name) := by
  have hnodes := h.nodes
  rw [← Array.any_toList, ← Array.any_toList]
  generalize c.nodes.toList = xs at hnodes ⊢
  generalize d.nodes.toList = ys at hnodes ⊢
  induction hnodes with
  | nil => simp
  | cons hxy _ ih => simp only [List.any_cons, hxy.1, ih]

variable (location : Location)

theorem add_corresponds {c d : Collected} (h : c.Corresponds m d) {i j : NodeId}
    (hij : m .node i j) :
    (c.add i location).Corresponds K m Collected.Corresponds (d.add j location) := by
  refine .bind (Program.readNode_corresponds hij) fun n x y hmn hxy => ?_
  have hpush (name : String) (unnamed : Nat) {u : Matching} (hnu : n ≤ u) :
      Program.Corresponds K u Collected.Corresponds
        (if c.nodes.any (·.1 == name) then
          .raise (.invalidArgument s!"multiple nodes with the name {name}" location)
        else
          return ⟨c.nodes.push (name, i), unnamed, c.inputs ++ x.inputs⟩ : Program Collected)
        (if d.nodes.any (·.1 == name) then
          .raise (.invalidArgument s!"multiple nodes with the name {name}" location)
        else
          return ⟨d.nodes.push (name, j), unnamed, d.inputs ++ y.inputs⟩) := by
    have hmu := le_trans hmn hnu
    refine .ite (by rw [any_eq h]) (.raise _) (.pure ⟨?_, rfl, ?_⟩)
    · simp only [Array.toList_push]
      exact List.rel_append (h.nodes.imp fun _ _ hx => ⟨hx.1, hmu _ _ _ hx.2⟩)
        (.cons ⟨rfl, hmu _ _ _ hij⟩ .nil)
    · exact List.rel_append (Matching.forall₂_mono hmu h.inputs)
        (Matching.forall₂_mono hnu hxy.inputs)
  have hname : x.isNamed = y.isNamed := by rw [Node.isNamed, hxy.name, Node.isNamed]
  by_cases hnamed : y.isNamed
  · simp only [hname, hnamed, if_true, hxy.name, h.unnamed]
    exact hpush _ _ le_rfl
  · simp only [hname, hnamed, Bool.false_eq_true, if_false, h.unnamed]
    exact .bind_eq (Program.rename_corresponds (.node (hmn _ _ _ hij)) _) fun _ _ hnu =>
      hpush _ _ hnu

theorem addAll_corresponds {c d : Collected} (h : c.Corresponds m d) {is js : List NodeId}
    (hij : List.Forall₂ (m .node) is js) :
    (c.addAll location is).Corresponds K m Collected.Corresponds (d.addAll location js) := by
  induction is generalizing m c d js with
  | nil =>
    cases hij
    exact .pure h
  | cons i is ih =>
    cases hij with
    | cons hfirst hrest =>
      exact .bind (add_corresponds location h hfirst) fun _ _ _ hmn hcd =>
        ih hcd (Matching.forall₂_mono hmn hrest)

end Collected

theorem sources_corresponds (location : Location) {nodes nodes' : List (String × NodeId)}
    (h : List.Forall₂ (fun x y => x.1 = y.1 ∧ m .node x.2 y.2) nodes nodes') :
    (sources location nodes).CorrespondsEq K m (sources location nodes') := by
  induction nodes generalizing m nodes' with
  | nil =>
    cases h
    exact .pure rfl
  | cons entry rest ih =>
    cases h with
    | @cons _ entry' _ rest' hentry hrest =>
      obtain ⟨name, i⟩ := entry
      obtain ⟨name', j⟩ := entry'
      obtain ⟨rfl, hij⟩ : name = name' ∧ m .node i j := hentry
      refine .bind (Program.readNode_corresponds hij) fun n x y hmn hxy => ?_
      have hih := ih (hrest.imp fun _ _ hx => ⟨hx.1, hmn _ _ _ hx.2⟩)
      have hempty : x.inputs.isEmpty = y.inputs.isEmpty := by
        have hinputs := hxy.inputs
        generalize x.inputs = is at hinputs ⊢
        generalize y.inputs = js at hinputs ⊢
        cases hinputs <;> simp
      rw [hempty, hxy.operation]
      refine .ite Iff.rfl ?_ hih
      split
      · exact .bind_eq hih fun _ s _ => .pure rfl
      · exact .bind_eq hih fun _ s _ => .pure rfl
      · exact .raise _

variable {r k : RecordId}

/-- Networks whose nodes correspond, in the same order and under the same names. The walk follows
    the members as they are declared, hence the order matters. -/
theorem ofFields_corresponds (hordered : K.ordered) (hrk : m .record r k) (location : Location) :
    (ofFields r location).Corresponds K m Network.Corresponds (ofFields k location) := by
  refine .bind (Program.readRecord_corresponds hrk) fun n x y hmn hxy => ?_
  have hmembers : List.Forall₂ (Member.Corresponds n) (x.members.toList.map (·.2))
      (y.members.toList.map (·.2)) :=
    List.forall₂_map_left_iff.2
      (List.forall₂_map_right_iff.2 ((hxy.members hordered).imp fun _ _ hx => hx.member))
  refine .bind (roots_corresponds hmembers) fun n₁ is js h₁ his => ?_
  have hroots : List.Forall₂ (Object.Corresponds n₁) (is.map .node) (js.map .node) :=
    List.forall₂_map_left_iff.2
      (List.forall₂_map_right_iff.2 (his.imp fun _ _ hij => .node hij))
  refine .bind (Program.tie_corresponds hroots .nil) fun n₂ os us h₂ hos => ?_
  have hnodes : List.Forall₂ (n₂ .node) (nodesOf os) (nodesOf us) := by
    induction hos with
    | nil => exact .nil
    | cons ho _ ih =>
      unfold nodesOf at ih ⊢
      rw [List.filterMap_cons, List.filterMap_cons]
      cases ho with
      | node hij => exact .cons hij ih
      | _ => exact ih
  refine .bind (Collected.addAll_corresponds location ⟨.nil, rfl, .nil⟩ hnodes)
    fun n₃ c d h₃ hcd => ?_
  refine .bind_eq (sources_corresponds location hcd.nodes) fun n₄ found h₄ => ?_
  refine .of_store fun hst => .pure ?_
  have hall := hcd.nodes.imp fun _ _ hx => And.intro hx.1 (h₄ _ _ _ hx.2)
  have hinputs := Matching.forall₂_mono h₄ hcd.inputs
  have houtputs : (c.nodes.toList.filter fun n => !c.inputs.contains n.2).map (·.1) =
      (d.nodes.toList.filter fun n => !d.inputs.contains n.2).map (·.1) := by
    generalize c.nodes.toList = xs at hall
    generalize d.nodes.toList = ys at hall
    induction hall with
    | nil => simp
    | cons hx _ ih =>
      have hcontains := contains_eq_of_forall₂ (hst.tables .node).unique hinputs hx.2
      rw [List.filter_cons, List.filter_cons, hcontains]
      split
      · rw [List.map_cons, List.map_cons, ih, hx.1]
      · exact ih
  have hfields := h₄ _ _ _ (h₃ _ _ _ (h₂ _ _ _ (h₁ _ _ _ (hmn _ _ _ hrk))))
  exact ⟨hall, rfl, rfl, houtputs, hfields, rfl⟩

theorem corresponds (hordered : K.ordered) : runtimeType.Corresponds K := by
  intro m r k hrk location path
  refine .bind (ofFields_corresponds hordered hrk location) fun n x y _ hxy => ?_
  exact .bind (Program.newNetwork_corresponds hxy) fun _ _ _ _ hnetwork =>
    .pure ⟨.object (.network hnetwork), rfl, rfl⟩

end Network

/-- What the types of the language make depends on what their fields hold, not on where that is
    kept. Some of them format records, which shows the order of members. -/
theorem Registry.standard_corresponds (hordered : K.ordered) : Registry.standard.Corresponds K := by
  intro entry hentry
  have hentry : entry ∈ [("ComputationNode", Node.runtimeType),
      ("ComputationNetwork", Network.runtimeType),
      ("NDLComputationNetwork", Network.runtimeType),
      ("StringFunction", TextFunction.runtimeType),
      ("NumericFunction", NumericFunction.runtimeType),
      ("PrintAction", PrintAction.runtimeType),
      ("FailAction", FailAction.runtimeType)] := hentry
  simp only [List.mem_cons, List.not_mem_nil, or_false] at hentry
  rcases hentry with rfl | rfl | rfl | rfl | rfl | rfl | rfl
  · exact Node.corresponds
  · exact Network.corresponds hordered
  · exact Network.corresponds hordered
  · exact TextFunction.corresponds hordered
  · exact NumericFunction.corresponds
  · exact PrintAction.corresponds hordered
  · exact FailAction.corresponds

end NetDesc
