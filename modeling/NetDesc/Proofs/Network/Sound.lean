import Mathlib.Data.List.Basic
import NetDesc.Proofs.Network.Discovery

namespace NetDesc

/-- In a table without repeated names every entry is found under its name. -/
theorem lookup_eq_some_of_mem {nodes : List (String × NodeId)} (hdistinct : (nodes.map (·.1)).Nodup)
    {a : String} {k : NodeId} (h : (a, k) ∈ nodes) : nodes.lookup a = some k := by
  induction nodes with
  | nil => cases h
  | cons p nodes ih =>
    obtain ⟨b, j⟩ := p
    rw [List.map_cons, List.nodup_cons] at hdistinct
    rcases List.mem_cons.1 h with heq | hrest
    · cases heq
      exact List.lookup_cons_self
    · have hne : a ≠ b := by
        rintro rfl
        exact hdistinct.1 (List.mem_map.2 ⟨_, hrest, rfl⟩)
      rw [List.lookup_cons, beq_false_of_ne hne]
      exact ih hdistinct.2 hrest

namespace Value

/-- The node that a value is, if it is one. -/
def node? (v : Value) : Option NodeId :=
  match v.payload with
  | .object (.node id) => some id
  | _ => none

theorem node?_valid {s : Store} {v : Value} (hv : v.Valid s) {id : NodeId}
    (hid : v.node? = some id) : id < s.nodes.size := by
  unfold node? at hid
  split at hid
  · next hpayload =>
    cases hid
    simpa [Value.Valid, hpayload, Payload.Valid, Object.Valid] using hv
  · cases hid

end Value

namespace Store

/-- The node that a cell holds, if it holds one. -/
def heldNode? (s : Store) (c : CellId) : Option NodeId :=
  match (s.cell c).progress with
  | .finished v => v.node?
  | _ => none

/-- The nodes among the members of a record, in the order of declaration. -/
def memberNodes (s : Store) (fields : RecordId) : List NodeId :=
  (s.record fields).members.toList.filterMap fun p => s.heldNode? p.2.cell

end Store

namespace Network

/-- The nodes of a network as objects. -/
def objects (n : Network) : List Object :=
  n.nodes.map fun p => .node p.2

/-- The names of the nodes with an operation. -/
def namesOf (s : Store) (nodes : List (String × NodeId)) (op : Operation) : List String :=
  (nodes.filter fun p => (s.node p.2).operation = op).map (·.1)

/-- The names of the nodes that none of the nodes takes as an input. -/
def namesOfUnused (s : Store) (nodes : List (String × NodeId)) : List String :=
  (nodes.filter fun p => nodes.all fun q => !(s.node q.2).inputs.contains p.2).map (·.1)

structure Sound (s : Store) (n : Network) : Prop where
  valid : ∀ p ∈ n.nodes, p.2 < s.nodes.size
  settled : ∀ p ∈ (s.record n.fields).members, (s.cell p.2.cell).isFinished = true
  order : s.Discovers ((s.memberNodes n.fields).map .node) [] n.objects
  named : ∀ p ∈ n.nodes, (s.node p.2).name = p.1 ∧ p.1 ≠ ""
  distinct : (n.nodes.map (·.1)).Nodup
  tied : ∀ p ∈ n.nodes, (s.node p.2).pendingInput = none
  inputs : n.inputs = namesOf s n.nodes .inputValue
  parameters : n.parameters = namesOf s n.nodes .learnableParameter
  outputs : n.outputs = namesOfUnused s n.nodes

section Growth

variable {s t : Store} {base : Nat}

theorem heldNode?_of_finished (hst : s.Extends base t) {c : CellId} (hc : c < s.cells.size)
    (hfinished : (s.cell c).isFinished = true) : t.heldNode? c = s.heldNode? c := by
  cases hprogress : (s.cell c).progress with
  | pending => simp [Cell.isFinished, hprogress] at hfinished
  | running => simp [Cell.isFinished, hprogress] at hfinished
  | finished v => simp [Store.heldNode?, hprogress, hst.finished c hc v hprogress]

theorem isFinished_of_extends (hst : s.Extends base t) {c : CellId} (hc : c < s.cells.size)
    (hfinished : (s.cell c).isFinished = true) : (t.cell c).isFinished = true := by
  cases hprogress : (s.cell c).progress with
  | pending => simp [Cell.isFinished, hprogress] at hfinished
  | running => simp [Cell.isFinished, hprogress] at hfinished
  | finished v => simp [Cell.isFinished, hst.finished c hc v hprogress]

theorem memberNodes_of_finished (hst : s.Extends base t) {fields : RecordId} (hbase : fields < base)
    (hvalid : (s.record fields).Valid s)
    (hfinished : ∀ p ∈ (s.record fields).members, (s.cell p.2.cell).isFinished = true) :
    t.memberNodes fields = s.memberNodes fields := by
  rw [Store.memberNodes, Store.memberNodes, hst.record fields hbase]
  apply List.filterMap_congr
  intro p hp
  have hmem : p ∈ (s.record fields).members := Array.mem_toList_iff.1 hp
  exact heldNode?_of_finished hst (hvalid.members p hmem) (hfinished p hmem)

/-- Nothing that happens later makes a network unsound: names, tied inputs and finished fields
    stay. -/
theorem Sound.mono {n : Network} (hn : n.Sound s) (hst : s.Extends base t)
    (hbase : n.fields < base) (hvalid : (s.record n.fields).Valid s) : n.Sound t := by
  have hnode (p) (hp : p ∈ n.nodes) : (s.node p.2).Extends (t.node p.2) :=
    hst.node p.2 (hn.valid p hp)
  have hinputs (p) (hp : p ∈ n.nodes) : (t.node p.2).inputs = (s.node p.2).inputs :=
    ((hnode p hp).tied (hn.tied p hp)).2
  have hnames (op : Operation) : namesOf t n.nodes op = namesOf s n.nodes op := by
    unfold namesOf
    rw [List.filter_congr fun p hp => by rw [(hnode p hp).operation]]
  have hunused : namesOfUnused t n.nodes = namesOfUnused s n.nodes := by
    unfold namesOfUnused
    rw [List.filter_congr fun p _ => ?_]
    rw [Bool.eq_iff_iff]
    simp only [List.all_eq_true]
    exact forall₂_congr fun q hq => by rw [hinputs q hq]
  refine {
    valid := fun p hp => Nat.lt_of_lt_of_le (hn.valid p hp) hst.covers.nodes
    settled := ?_
    order := ?_
    named := ?_
    distinct := hn.distinct
    tied := fun p hp => ((hnode p hp).tied (hn.tied p hp)).1
    inputs := by rw [hnames]; exact hn.inputs
    parameters := by rw [hnames]; exact hn.parameters
    outputs := by rw [hunused]; exact hn.outputs }
  · intro p hp
    rw [hst.record _ hbase] at hp
    exact isFinished_of_extends hst (hvalid.members p hp) (hn.settled p hp)
  · rw [memberNodes_of_finished hst hbase hvalid hn.settled]
    refine hn.order.congr fun o ho _ => ?_
    obtain ⟨p, hp, rfl⟩ := List.mem_map.1 ho
    simp only [Store.children, hinputs p hp]
  · intro p hp
    obtain ⟨hname, hne⟩ := hn.named p hp
    exact ⟨by rw [(hnode p hp).name (by rwa [hname]), hname], hne⟩

end Growth

end Network

end NetDesc
