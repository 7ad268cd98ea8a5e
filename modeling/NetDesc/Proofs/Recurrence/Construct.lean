import Mathlib.Data.List.Perm.Subperm
import NetDesc.Proofs.Recurrence.Members

namespace NetDesc

/-- A class selects the operation that has it. -/
@[simp]
theorem Operation.ofClass?_className (op : Operation) : ofClass? op.className = some op := by
  cases op <;> decide

theorem Value.asNode_eq_ok {v : Value} {k : NodeId} (h : v.payload = .object (.node k)) :
    v.asNode = .ok k := by
  rw [asNode, h]

/-- Integers up to `Number.maxExactInt` pass the check for integers. -/
theorem Value.asIndex_eq_ok {v : Value} {x : Float} {i : Int} (h : v.payload = .number x)
    (hx : (Binary64.ofFloat x).toInt? = some i) (hi : i.natAbs ≤ Number.maxExactInt) :
    v.asIndex = .ok (Int64.ofInt i) := by
  have hnumber : v.asNumber = .ok x := by rw [asNumber, h]
  have hindex : Number.toIndex? x = some (Int64.ofInt i) := by
    rw [Number.toIndex?, hx]
    exact if_pos hi
  simp only [asIndex, hnumber, bind, Except.bind, hindex]
  rfl

namespace Program.Ends

variable {ev : Evaluator} {depth : Nat} {s : Store} {E : Prop}

/-- Forcing cells that are finished gives their values. -/
theorem forceAll_finished {cells : List CellId} {values : List Value}
    (h : List.Forall₂ (fun c v => (s.cell c).progress = .finished v) cells values) :
    (Program.forceAll cells).Ends ev depth s (fun t found => t = s ∧ found = values) E := by
  induction h with
  | nil => exact .pure ⟨rfl, rfl⟩
  | @cons c v cells values hv _ ih =>
    rw [Program.forceAll, List.mapM_cons]
    refine .bind (.force_finished (P := fun t found => t = s ∧ found = v) hv ⟨rfl, rfl⟩) ?_
    rintro _ _ ⟨rfl, rfl⟩
    refine .bind ih ?_
    rintro _ _ ⟨rfl, rfl⟩
    exact .pure ⟨rfl, rfl⟩

/-- Values that are nodes pass the check for nodes. -/
theorem asNodes {values : List Value} {ids : List NodeId}
    (h : List.Forall₂ (fun v k => v.payload = .object (.node k)) values ids) :
    (values.mapM fun v => (v.asNode : Program NodeId)).Ends ev depth s
      (fun t found => t = s ∧ found = ids) E := by
  induction h with
  | nil => exact .pure ⟨rfl, rfl⟩
  | cons hk _ ih =>
    rw [List.mapM_cons]
    refine .check (Value.asNode_eq_ok hk) (.bind ih ?_)
    rintro _ _ ⟨rfl, rfl⟩
    exact .pure ⟨rfl, rfl⟩

end Program.Ends

namespace Design

/-- Forcing the member `a` has given its node, and everything else goes on. -/
structure Forced (d : Design) (r : RecordId) (active : List String) (a : String) (s t : Store)
    (v : Value) : Prop where
  later : s.Later (Task.In r) t
  underway : d.Underway r active t
  node : ∃ k, v.payload = .object (.node k) ∧ t.MemberIs r a k

/-- Members can be forced whenever those in `active` are computed, or else `E` holds. A member
    that is computed forces those that it requires, so this is an induction on how many are not
    being computed yet. -/
def Forces (d : Design) (ev : Evaluator) (depth : Nat) (r : RecordId) (active names : List String)
    (E : Prop) : Prop :=
  ∀ a ∈ names, ∀ s m, d.Underway r active s → (s.record r).find? a = some m →
    (Program.force m.cell).Ends ev depth s (d.Forced r active a s) E

/-- The members that `a` requires lead round in a circle or to one that is computed. -/
def Blocked (d : Design) (active : List String) (a : String) : Prop :=
  d.Cyclic ∨ ∃ b ∈ active, Relation.ReflTransGen d.Requires a b

/-- What leads back to a member that requires it closes a circle. -/
theorem Blocked.of_requires {d : Design} {active : List String} {a b : String}
    (h : d.Blocked (a :: active) b) (hab : d.Requires a b) : d.Blocked active a := by
  rcases h with hcyclic | ⟨c, hc, hbc⟩
  · exact .inl hcyclic
  · rcases List.mem_cons.1 hc with rfl | hc
    · exact .inl ⟨c, .head' hab hbc⟩
    · exact .inr ⟨c, hc, .head hab hbc⟩

end Design

namespace Evaluator

variable {ev : Evaluator} {depth : Nat} {d : Design} {r fields : RecordId} {active : List String}
  {E : Prop} {s : Store}

/-- An identifier in the fields of a node forces the member of the network. -/
theorem evaluate_var_ends {e : Expr} {a : String} {names : List String} (he : e.kind = .var a)
    (ha : a ∈ names) (hname : a ∈ d.names) (hforce : d.Forces ev (depth + 1) r active names E)
    (hdepth : depth < ev.maxDepth) (hs : d.Underway r active s) (hsees : s.Sees fields r a)
    (path : String) :
    (Program.evaluate e fields path).Ends ev depth s (d.Forced r active a s) E := by
  obtain ⟨m, n, e, -, hm, -⟩ := hs.memberOf hname
  obtain ⟨rest, hrest⟩ := hsees.enclosing
  refine .evaluate hdepth ?_
  rw [he]
  exact .lookup (Store.find?_outside hrest hsees.free hm) _ (hforce a ha s m hs hm)

/-- The items of an array of identifiers give the nodes of members. -/
theorem evaluateItems_ends {names inputs : List String} {items : List Expr}
    (hitems : items.map Expr.kind = inputs.map .var) (hinputs : ∀ a ∈ inputs, a ∈ names)
    (hnames : ∀ a ∈ names, a ∈ d.names) (hforce : d.Forces ev (depth + 1) r active names E)
    (hdepth : depth < ev.maxDepth) (hs : d.Underway r active s)
    (hsees : ∀ a ∈ names, s.Sees fields r a) (path : String) (count : Nat)
    (found : Array CellId) :
    (evaluateItems fields path count found items).Ends ev depth s
      (fun t cells => s.Later (Task.In r) t ∧ d.Underway r active t ∧
        ∃ new, cells.toList = found.toList ++ new ∧ List.Forall₂ (t.Gives r) inputs new) E := by
  induction items generalizing inputs s count found with
  | nil =>
    obtain rfl : inputs = [] := by simpa using hitems.symm
    exact .pure ⟨.refl _ s, hs, [], by simp, .nil⟩
  | cons item items ih =>
    cases inputs with
    | nil => simp at hitems
    | cons a inputs =>
      rw [List.map_cons, List.map_cons, List.cons.injEq] at hitems
      rw [List.forall_mem_cons] at hinputs
      refine .bind (evaluate_var_ends hitems.1 hinputs.1 (hnames a hinputs.1) hforce hdepth hs
        (hsees a hinputs.1) _) ?_
      intro t v hforced
      obtain ⟨k, hk, hmember⟩ := hforced.node
      rw [hk]
      refine .after ?_
      let u : Store := { t with cells := t.cells.push (.ready v) }
      have htu : t.Later (fun _ => False) u := (Store.Later.refl _ t).newCell _
      have hgives : u.Gives r a t.cells.size := by
        refine ⟨by simp [u], v, k, ?_, hk, hmember.later htu hforced.underway.inside⟩
        rw [show u.cell t.cells.size = .ready v from (Store.cell_push t _ _).trans (if_pos rfl)]
        rfl
      have hlater : s.Later (Task.In r) u := hforced.later.trans htu.weaken
      refine (ih hitems.2 hinputs.2 (hforced.underway.later htu)
        (fun b hb => (hsees b hb).later hlater) (count + 1) (found.push t.cells.size)).imp ?_ id
      rintro w cells ⟨huw, hw, new, hnew, hall⟩
      refine ⟨hlater.trans huw, hw, t.cells.size :: new, ?_, .cons ?_ hall⟩
      · rw [hnew, Array.toList_push, List.append_assoc, List.singleton_append]
      · exact hgives.later huw (hforced.underway.later htu).inside

end Evaluator

namespace Node

variable {ev : Evaluator} {depth : Nat} {d : Design} {r fields : RecordId} {active : List String}
  {E : Prop} {s₀ s : Store} {path : String} {b : Binding} {m : Member} {inputs : List String}

section Inputs

variable {items : List Expr} (hs₀ : d.Underway r active s₀)
  (hlater : s₀.Later (fun _ => False) s) (hfield : s.Holds fields path s₀.cells.size b m)
  (hname : b.name.name = "inputs") (hkind : b.value.kind = .array items)
  (hitems : items.map Expr.kind = inputs.map .var) (hne : fields ≠ r)
  (hnames : ∀ a ∈ inputs, a ∈ d.names) (hsees : ∀ a ∈ inputs, s.Sees fields r a)
  (hforce : d.Forces ev (depth + 2) r active inputs E) (hdepth : depth + 1 < ev.maxDepth)

include hs₀ hlater hfield hname hkind hitems hne hnames hsees hforce hdepth

/-- The field `inputs` gives cells that hold the nodes of members. -/
theorem inputsField_ends :
    (Program.field fields "inputs").Ends ev depth s (fun t v => s₀.Later (Task.In r) t ∧
      d.Underway r active t ∧ ∃ a : LazyArray, v.payload = .array a ∧
        List.Forall₂ (t.Gives r) inputs a.cells.toList) E := by
  refine .field (hname ▸ hfield.found) (.force_pending hfield.pending ?_)
  rw [hfield.task]
  refine .evaluate (Nat.lt_of_succ_lt hdepth) ?_
  rw [hkind]
  have hstart := hlater.setProgress hfield.new .running
  refine .bind (Evaluator.evaluateItems_ends hitems (fun _ h => h) hnames hforce hdepth
    (hs₀.later hstart) (fun a ha => (hsees a ha).setProgress _) _ 0 #[]) ?_
  rintro t cells ⟨hst, ht, new, hnew, hgives⟩
  have hinside : m.cell < (s.setProgress m.cell .running).cells.size := by
    simpa using hfield.inside
  have hrunning : (t.cell m.cell).progress = .running := by
    rw [hst.running_iff hinside, Store.setProgress_running_iff]
    exact .inl ⟨rfl, hfield.inside⟩
  have htask : ¬Task.In r (t.cell m.cell).task := by
    rintro ⟨e, inside, hin⟩
    rw [hst.task hinside, Store.setProgress_cell_self hfield.inside] at hin
    exact hne (Task.evaluate.inj (hfield.task.symm.trans hin)).2.1
  have hall := hstart.weaken.trans hst
  refine .pure ⟨hall.setProgress hfield.new _, ht.other hrunning htask _, _, rfl, ?_⟩
  rw [hnew]
  exact hgives.imp fun _ _ h => h.setProgress (by simp [hrunning])

theorem inputNodes_ends {op : Operation} (hop : op.inputCount? = some inputs.length) :
    (inputNodes fields op).Ends ev depth s (fun t ids => s₀.Later (Task.In r) t ∧
      d.Underway r active t ∧ List.Forall₂ (t.MemberIs r) inputs ids) E := by
  have hvalues : (inputValues fields op).Ends ev depth s (fun t values => s₀.Later (Task.In r) t ∧
      d.Underway r active t ∧ ∃ ids,
        List.Forall₂ (fun v k => v.payload = .object (.node k)) values ids ∧
        List.Forall₂ (t.MemberIs r) inputs ids) E := by
    refine .bind (inputsField_ends hs₀ hlater hfield hname hkind hitems hne hnames hsees hforce
      hdepth) ?_
    rintro t v ⟨hst, ht, a, ha, hgives⟩
    obtain ⟨values, ids, hvalues, hids, hmembers⟩ := Store.exists_values_of_gives hgives
    have hlength : values.length = inputs.length :=
      hids.length_eq.trans hmembers.length_eq.symm
    rw [ha]
    refine .bind (.forceAll_finished hvalues) ?_
    rintro _ _ ⟨rfl, rfl⟩
    dsimp only
    rw [hop, Option.getD_some, if_pos hlength]
    exact .pure ⟨hst, ht, ids, hids, hmembers⟩
  refine .bind hvalues ?_
  rintro t values ⟨hst, ht, ids, hids, hmembers⟩
  refine (Program.Ends.asNodes hids).imp ?_ id
  rintro _ _ ⟨rfl, rfl⟩
  exact ⟨hst, ht, hmembers⟩

end Inputs

/-- The record `fields`, made after `s₀` inside `r`, has the given fields. Those that have not been
    accessed are pending. -/
structure Described (d : Design) (r : RecordId) (s₀ : Store) (fields : RecordId) (path : String)
    (given : List (String × ExprKind)) (accessed : List String) (s : Store) : Prop where
  later : s₀.Later (fun _ => False) s
  new : s₀.records.size ≤ fields
  sees : ∀ a ∈ d.names, s.Sees fields r a
  names : (s.record fields).names ⊆ NodeDesign.fieldNames
  holds : ∀ name kind, (name, kind) ∈ given → name ∉ accessed → ∃ b m, b.name.name = name ∧
    b.value.kind = kind ∧ s.Holds fields path s₀.cells.size b m

namespace Described

variable {n : NodeDesign} {given : List (String × ExprKind)} {accessed : List String}

/-- Accessing a field that is a literal gives its value. -/
theorem field_literal (h : Described d r s₀ fields path given accessed s)
    (hgiven : n.Fields given) (name : String) (kind : ExprKind) (payload : Payload)
    (hmem : (name, kind) ∈ given) (hname : name ∉ accessed) (hdepth : depth < ev.maxDepth)
    (hvalue : ∀ location scope path,
      ev.evaluateKind kind location scope path = pure ⟨payload, location, path⟩) :
    (Program.field fields name).Ends ev depth s (fun t v => v.payload = payload ∧
      t.record fields = s.record fields ∧
      Described d r s₀ fields path given (name :: accessed) t) E := by
  obtain ⟨b, m, rfl, rfl, hm⟩ := h.holds name kind hmem hname
  refine .field_literal hm rfl hdepth hvalue fun v hv => ⟨hv, rfl, ?_⟩
  refine { h with
    later := (h.later.setProgress hm.new _).setProgress hm.new _
    sees := fun a ha => ((h.sees a ha).setProgress _).setProgress _
    holds := ?_ }
  intro name' kind' hmem' hname'
  rw [List.mem_cons, not_or] at hname'
  obtain ⟨b', m', rfl, rfl, hm'⟩ := h.holds name' kind' hmem' hname'.2
  have hne := hm.cell_ne hm' (hgiven.kind_ne hmem hmem' (Ne.symm hname'.1))
  exact ⟨b', m', rfl, rfl, (hm'.setProgress hne _).setProgress hne _⟩

theorem not_found (h : Described d r s₀ fields path given accessed s) {name : String}
    (hname : name ∉ NodeDesign.fieldNames) : (s.record fields).find? name = none :=
  Record.find?_eq_none_of_not_mem fun hmem => hname (h.names hmem)

end Described

/-- Operations on inputs only read the field `inputs`. -/
theorem ofFields_of_inputCount? {op : Operation} {count : Nat} (hop : op.inputCount? = some count)
    (hscale : op ≠ .scale) (hslice : op ≠ .rowSlice) (tag : String) (fields : RecordId) :
    ofFields op tag fields =
      (do return { operation := op, tag, inputs := ← inputNodes fields op }) := by
  cases op <;> first | rfl | contradiction

section Construct

variable {n : NodeDesign} {given : List (String × ExprKind)} (hs₀ : d.Underway r active s₀)
  (hgiven : n.Fields given) (hproper : n.Proper) (hexact : n.Exact)
  (hinputs : ∀ a ∈ n.inputs, a ∈ d.names)
  (hforce : d.Forces ev (depth + 2) r active n.prerequisites E) (hdepth : depth + 1 < ev.maxDepth)

include hs₀ hgiven hproper hexact hinputs hforce hdepth

/-- The fields give a node as designed. -/
theorem ofFields_ends (h : Described d r s₀ fields path given ["class"] s) :
    (ofFields n.operation "" fields).Ends ev depth s (fun t x => s₀.Later (Task.In r) t ∧
      d.Underway r active t ∧ (t.Wired r "" n x ∨ t.Waits r "" n x)) E := by
  have hne : fields ≠ r := (Nat.ne_of_lt (Nat.lt_of_lt_of_le hs₀.inside h.new)).symm
  cases hgiven with
  | input =>
    exact .pure ⟨h.later.weaken, hs₀.later h.later, .inl ⟨[], rfl, .nil⟩⟩
  | @apply op inputs items hitems =>
    obtain ⟨hop, hscale, hslice⟩ := hproper
    obtain ⟨b, m, hname, hkind, hm⟩ := h.holds "inputs" (.array items) (by simp) (by simp)
    rw [NodeDesign.operation, ofFields_of_inputCount? hop hscale hslice]
    refine .bind (inputNodes_ends hs₀ h.later hm hname hkind hitems hne hinputs
      (fun a ha => h.sees a (hinputs a ha)) hforce hdepth hop) ?_
    rintro t ids ⟨hst, ht, hmembers⟩
    exact .pure ⟨hst, ht, .inl ⟨ids, rfl, hmembers⟩⟩
  | @delay input deltaT x hx =>
    obtain ⟨b, m, hname, -, hm⟩ := h.holds "input" (.var input) (by simp) (by simp)
    have hfound : (s.record fields).find? "input" = some m := hname ▸ hm.found
    refine .bind (P := fun t found => t = s ∧ found = some m.cell) (.after (.pure ⟨rfl, ?_⟩)) ?_
    · exact congrArg (Option.map _) hfound
    rintro _ _ ⟨rfl, rfl⟩
    refine .bind (h.field_literal (.delay hx) "deltaT" (.number x) (.number x) (by simp) (by simp)
      (Nat.lt_of_succ_lt hdepth) fun _ _ _ => rfl) ?_
    rintro t v ⟨hv, hrecord, ht⟩
    refine .check (Value.asIndex_eq_ok hv hx hexact) (.pure ?_)
    obtain ⟨b', m', hname', hkind', hm'⟩ := ht.holds "input" (.var input) (by simp) (by simp)
    obtain rfl : m = m' := by
      have hfound' := hname' ▸ hm'.found
      rw [hrecord, hfound] at hfound'
      exact Option.some.inj hfound'
    have hsees := ht.sees input (hinputs input List.mem_cons_self)
    have hawaits : t.Awaits r input m.cell :=
      ⟨hm'.inside, ⟨_, _, _, hm'.task, hkind', hsees⟩, .inl hm'.pending⟩
    exact ⟨ht.later.weaken, hs₀.later ht.later,
      .inr ⟨input, deltaT, m.cell, rfl, rfl, hawaits⟩⟩

/-- A node is constructed, without a name. -/
theorem construct_ends (h : Described d r s₀ fields path given [] s) (location : Location) :
    (construct fields location path).Ends ev depth s (fun t v => ∃ u x,
      s₀.Later (Task.In r) u ∧ d.Underway r active u ∧ (u.Wired r "" n x ∨ u.Waits r "" n x) ∧
        v = .object (.node u.nodes.size) location path ∧
        t = { u with nodes := u.nodes.push x }) E := by
  have hop : (selectedOperation fields).Ends ev depth s (fun t op => op = n.operation ∧
      Described d r s₀ fields path given ["class"] t) E := by
    refine .bind (h.field_literal hgiven "class" (.text n.operation.className)
      (.text n.operation.className) hgiven.class_mem (by simp) (Nat.lt_of_succ_lt hdepth)
      fun _ _ _ => rfl) ?_
    rintro t v ⟨hv, -, ht⟩
    have htext : v.asText = .ok n.operation.className := by rw [Value.asText, hv]
    refine .check htext ?_
    rw [Operation.ofClass?_className]
    exact .pure ⟨rfl, ht⟩
  refine .bind hop ?_
  rintro t _ ⟨rfl, ht⟩
  have htag : (tagOf fields).Ends ev depth t (fun u tag => u = t ∧ tag = "") E := by
    refine .bind (P := fun u found => u = t ∧ found = none)
      (.optionalField_none (ht.not_found (by decide)) ⟨rfl, rfl⟩) ?_
    rintro _ _ ⟨rfl, rfl⟩
    exact .pure ⟨rfl, rfl⟩
  refine .bind htag ?_
  rintro _ _ ⟨rfl, rfl⟩
  refine .bind (ofFields_ends hs₀ hgiven hproper hexact hinputs hforce hdepth ht) ?_
  rintro u x ⟨hlater, hu, hx⟩
  exact .after (.pure ⟨u, x, hlater, hu, hx, rfl, rfl⟩)

end Construct

end Node

namespace Evaluator

variable {ev : Evaluator} {depth : Nat} {d : Design} {r : RecordId} {active : List String}
  {E : Prop} {s : Store} {a : String} {n : NodeDesign}

/-- The fields of a node, right after they have been laid out. -/
theorem described_of_lays {members : List Binding} {given : List (String × ExprKind)}
    {fields : RecordId} {t : Store} (hs : d.Underway r active s)
    (hgiven : given ⊆ members.map fun b => (b.name.name, b.value.kind))
    (hnames : members.map (·.name.name) ⊆ NodeDesign.fieldNames)
    (hlays : s.Lays r a members fields t) : Node.Described d r s fields a given [] t := by
  rw [← hlays.names] at hnames
  refine ⟨hlays.later (.refl _ s), hlays.new, fun b hb => ?_, hnames, fun name kind hmem _ => ?_⟩
  · obtain ⟨p, hp, rfl⟩ := List.mem_map.1 hb
    refine ⟨hlays.inside, ?_, ⟨_, hlays.enclosing⟩, ?_⟩
    · exact (Nat.ne_of_lt (Nat.lt_of_lt_of_le hs.inside hlays.new)).symm
    · exact Record.find?_eq_none_of_not_mem fun hin => (d.named p hp).2 (hnames hin)
  · obtain ⟨b, hb, heq⟩ := List.mem_map.1 (hgiven hmem)
    obtain ⟨m, hm⟩ := hlays.holds b hb
    exact ⟨b, m, congrArg Prod.fst heq, congrArg Prod.snd heq, hm⟩

/-- A node that is added last has been made after all others. -/
theorem made_of_newNode {x : Node} (hs : d.Underway r active s) (ha : (a, n) ∈ d.nodes)
    (hx : s.Wired r "" n x ∨ s.Waits r "" n x) {t : Store} (hst : s.Later (fun _ => False) t)
    (hinside : s.nodes.size < t.nodes.size)
    (hnode : t.node s.nodes.size = { x with name := a }) : t.Made r a n s.nodes.size where
  inside := hinside
  node := by
    rw [hnode]
    exact hx.imp (fun h => (h.later hst hs.inside).named a)
      fun h => (h.later hst.weaken hs.inside).named a
  before b hb := by
    have hname : b ∈ d.names := Design.Requires.mem_names ⟨n, ha, hb⟩
    rcases hx with ⟨ids, -, hall⟩ | ⟨_, _, _, rfl, -⟩
    · obtain ⟨i, -, hi⟩ := exists_right_of_forall₂ hall (n.prerequisites_subset hb)
      exact ⟨i, hs.node_lt hname hi, hi.later hst hs.inside⟩
    · cases hb

/-- Evaluating a member makes its node. -/
theorem evaluate_member_ends (hev : ev.registry = .standard) (hexact : d.Exact) {e : Expr}
    (he : n.WrittenAs e) (ha : (a, n) ∈ d.nodes) (hs : d.Underway r active s)
    (hforce : d.Forces ev (depth + 3) r active n.prerequisites E)
    (hdepth : depth + 2 < ev.maxDepth) :
    (Program.evaluate e r a).Ends ev depth s (fun t v => s.Later (Task.In r) t ∧
      d.Underway r active t ∧ ∃ k, v.payload = .object (.node k) ∧ t.Made r a n k) E := by
  obtain ⟨htype, hfields, hgiven, hdistinct, hnames⟩ := he
  refine .evaluate (by omega) ?_
  refine .check (a := Node.runtimeType) (by rw [hev, htype]; rfl) ?_
  refine .bind (evaluate_record_ends rfl hdistinct (by omega) s r a) ?_
  rintro t v ⟨fields, hv, hlays⟩
  have hrecord : v.asRecord = .ok fields := by rw [Value.asRecord, hv]
  refine .check hrecord ?_
  refine .bind (Node.construct_ends hs hfields (d.proper _ ha) (hexact _ ha) (d.closed _ ha) hforce
    (by omega) (described_of_lays hs hgiven hnames hlays) _) ?_
  rintro _ _ ⟨u, x, hsu, hu, hx, rfl, rfl⟩
  refine .after (.pure ?_)
  let w : Store := { u with nodes := (u.nodes.push x).modify u.nodes.size ({ · with name := a }) }
  have hlast : u.Later (fun _ => False) w :=
    ((Store.Later.refl _ u).newNode x).modifyNode (Nat.le_refl _) _
  have hnode : w.node u.nodes.size = { x with name := a } := by
    refine (Store.node_modify { u with nodes := u.nodes.push x } _ _ _).trans ?_
    rw [if_pos ⟨rfl, by simp⟩, Store.node_push, if_pos rfl]
  have hinside : u.nodes.size < w.nodes.size := by simp [w]
  exact ⟨hsu.trans hlast.weaken, hu.later hlast, _, rfl,
    made_of_newNode hu ha hx hlast hinside hnode⟩

/-- Forcing a member gives its node, or else what it requires leads round in a circle or to a
    member that is being computed. -/
theorem force_member_ends (hev : ev.registry = .standard) (hexact : d.Exact) {left : Nat}
    (hactive : active.Nodup) (hnames : active ⊆ d.names)
    (hleft : active.length + left = d.nodes.length)
    (hdepth : depth + 3 * left ≤ ev.maxDepth) {m : Member} (hs : d.Underway r active s)
    (ha : a ∈ d.names) (hm : (s.record r).find? a = some m) :
    (Program.force m.cell).Ends ev depth s (d.Forced r active a s) (d.Blocked active a) := by
  induction left using Nat.strongRecOn generalizing active depth s a m with
  | ind left ih =>
    obtain ⟨m', n, e, hn, hfound, hlt, htask, he⟩ := hs.memberOf ha
    obtain rfl : m = m' := Option.some.inj (hm.symm.trans hfound)
    cases hprogress : (s.cell m.cell).progress with
    | finished v =>
      obtain ⟨k, hk, -⟩ := hs.made a n hn m v hm hprogress
      exact .force_finished hprogress ⟨.refl _ s, hs, k, hk, m, v, hm, hlt, hprogress, hk⟩
    | running =>
      exact .force_running hprogress (.inr ⟨a, (hs.running a ha m hm).1 hprogress, .refl⟩)
    | pending =>
      have hnew : a ∉ active := fun hmem => by
        have hrunning := (hs.running a ha m hm).2 hmem
        simp [hrunning] at hprogress
      have hactive' : (a :: active).Nodup := List.nodup_cons.2 ⟨hnew, hactive⟩
      have hnames' : a :: active ⊆ d.names := List.cons_subset.2 ⟨ha, hnames⟩
      -- Names are counted, so some are left as long as one of them is not being computed.
      have hcount : active.length + 1 ≤ d.nodes.length := by
        simpa [Design.names] using (hactive'.subperm hnames').length_le
      refine .force_pending hprogress ?_
      rw [htask]
      have hforce : d.Forces ev (depth + 3) r (a :: active) n.prerequisites
          (d.Blocked active a) := by
        intro b hb u m' hu hm'
        have hrequires : d.Requires a b := ⟨n, hn, hb⟩
        refine (ih (left - 1) (by omega) hactive' hnames' ?_ (by omega) hu hrequires.mem_names
          hm').imp (fun _ _ h => h) fun hblocked => hblocked.of_requires hrequires
        rw [List.length_cons]
        omega
      refine (evaluate_member_ends hev hexact he hn (hs.start ha hm hprogress) hforce
        (by omega)).imp ?_ id
      rintro t v ⟨hst, ht, k, hk, hmade⟩
      have hfound : (t.record r).find? a = some m := by
        rwa [hst.record r hs.inside]
      have hlt' : m.cell < t.cells.size := Nat.lt_of_lt_of_le (by simpa using hlt) hst.cells
      refine ⟨hst.settle hprogress ⟨e, a, htask⟩ v, ht.finish hn hfound hnew hk hmade, k, hk, m, v,
        hfound, by simpa using hlt', ?_, hk⟩
      rw [Store.setProgress_cell_self hlt']

end Evaluator

end NetDesc
