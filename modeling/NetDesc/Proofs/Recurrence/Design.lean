import Mathlib.Data.List.Forall2
import Mathlib.Data.List.Nodup
import Mathlib.Logic.Relation
import NetDesc.Expr
import NetDesc.Number
import NetDesc.Store

namespace NetDesc

theorem exists_right_of_forall₂ {α β : Type} {R : α → β → Prop} {xs : List α} {ys : List β}
    (h : List.Forall₂ R xs ys) {x : α} (hx : x ∈ xs) : ∃ y ∈ ys, R x y := by
  induction h with
  | nil => cases hx
  | cons hxy _ ih =>
    rcases List.mem_cons.1 hx with rfl | hx
    · exact ⟨_, List.mem_cons_self, hxy⟩
    · obtain ⟨y, hy, hxy'⟩ := ih hx
      exact ⟨y, List.mem_cons_of_mem _ hy, hxy'⟩

/-- A node by what it takes as inputs, some of them only after a delay. Designs say what a
    network is to be before anything of it exists. -/
inductive NodeDesign where
  /-- An input of the network. -/
  | input
  /-- An operation on other nodes. -/
  | apply (op : Operation) (inputs : List String)
  /-- What another node was `deltaT` steps ago. -/
  | delay (input : String) (deltaT : Int)

namespace NodeDesign

def operation : NodeDesign → Operation
  | input => .inputValue
  | apply op _ => op
  | delay _ _ => .delay

def settings : NodeDesign → NodeSettings
  | delay _ deltaT => .delay (Int64.ofInt deltaT)
  | _ => .none

/-- The names of all inputs, in order. -/
def inputs : NodeDesign → List String
  | input => []
  | apply _ inputs => inputs
  | delay of _ => [of]

/-- The names of the inputs that have to be there before the node. -/
def prerequisites : NodeDesign → List String
  | apply _ inputs => inputs
  | _ => []

/-- Operations are given as many inputs as they take, and take nothing else. -/
def Proper : NodeDesign → Prop
  | apply op inputs => op.inputCount? = some inputs.length ∧ op ≠ .scale ∧ op ≠ .rowSlice
  | _ => True

theorem prerequisites_subset (n : NodeDesign) : n.prerequisites ⊆ n.inputs := by
  cases n <;> simp [prerequisites, inputs]

/-- Delays are by integers that the language counts with. -/
def Exact : NodeDesign → Prop
  | delay _ deltaT => deltaT.natAbs ≤ Number.maxExactInt
  | _ => True

/-- The node with its inputs. -/
def node (n : NodeDesign) (name : String) (inputs : List NodeId) : Node :=
  { operation := n.operation, name, settings := n.settings, inputs }

/-- The names of the fields that nodes are described by. -/
def fieldNames : List String := ["class", "inputs", "input", "deltaT"]

/-- The fields that describe a node. -/
inductive Fields : NodeDesign → List (String × ExprKind) → Prop
  | input : Fields input [("class", .text Operation.inputValue.className)]
  | apply {op : Operation} {inputs : List String} {items : List Expr}
      (hitems : items.map Expr.kind = inputs.map .var) :
      Fields (apply op inputs) [("class", .text op.className), ("inputs", .array items)]
  | delay {input : String} {deltaT : Int} {x : Float}
      (hx : (Binary64.ofFloat x).toInt? = some deltaT) :
      Fields (delay input deltaT)
        [("class", .text Operation.delay.className), ("input", .var input), ("deltaT", .number x)]

/-- The expressions that write a node down. Its fields come in any order, and there may be others
    that it does not read. -/
inductive WrittenAs (n : NodeDesign) : Expr → Prop
  | mk {typeName : Ident} {members : List Binding} {fields : List (String × ExprKind)}
      {location inside : Location} (htype : typeName.name = "ComputationNode")
      (hfields : n.Fields fields)
      (hgiven : fields ⊆ members.map fun b => (b.name.name, b.value.kind))
      (hdistinct : (members.map (·.name.name)).Nodup)
      (hnames : members.map (·.name.name) ⊆ fieldNames) :
      WrittenAs n (.mk (.new typeName (.mk (.record members) inside)) location)

namespace Fields

variable {n : NodeDesign} {fields : List (String × ExprKind)}

theorem class_mem (h : n.Fields fields) : ("class", .text n.operation.className) ∈ fields := by
  cases h <;> exact List.mem_cons_self

/-- Different fields are of different forms. -/
theorem kind_ne (h : n.Fields fields) {name name' : String} {kind kind' : ExprKind}
    (hmem : (name, kind) ∈ fields) (hmem' : (name', kind') ∈ fields) (hne : name ≠ name') :
    kind ≠ kind' := by
  cases h <;> simp at hmem hmem' <;> grind

end Fields

end NodeDesign

/-- A network by the names of its nodes. All inputs are among these. -/
structure Design where
  nodes : List (String × NodeDesign)
  distinct : (nodes.map (·.1)).Nodup
  named : ∀ p ∈ nodes, p.1 ≠ "" ∧ p.1 ∉ NodeDesign.fieldNames
  proper : ∀ p ∈ nodes, p.2.Proper
  closed : ∀ p ∈ nodes, ∀ a ∈ p.2.inputs, a ∈ nodes.map (·.1)

namespace Design

def names (d : Design) : List String :=
  d.nodes.map (·.1)

/-- All delays are by integers that the language counts with. -/
def Exact (d : Design) : Prop :=
  ∀ p ∈ d.nodes, p.2.Exact

/-- A name stands for one node. -/
theorem eq_of_name {d : Design} {a : String} {n n' : NodeDesign} (h : (a, n) ∈ d.nodes)
    (h' : (a, n') ∈ d.nodes) : n = n' :=
  congrArg Prod.snd (List.inj_on_of_nodup_map d.distinct h h' rfl)

/-- `b` has to be there before `a`. -/
def Requires (d : Design) (a b : String) : Prop :=
  ∃ n, (a, n) ∈ d.nodes ∧ b ∈ n.prerequisites

/-- Nodes that are required are nodes of the design. -/
theorem Requires.mem_names {d : Design} {a b : String} (h : d.Requires a b) : b ∈ d.names := by
  obtain ⟨n, hn, hb⟩ := h
  exact d.closed (a, n) hn b (n.prerequisites_subset hb)

/-- Some node would have to be there before itself. -/
def Cyclic (d : Design) : Prop :=
  ∃ a, Relation.TransGen d.Requires a a

/-- The expressions that write a network down. -/
inductive WrittenAs (d : Design) : Expr → Prop
  | mk {typeName : Ident} {members : List Binding} {location inside : Location}
      (htype : typeName.name = "ComputationNetwork")
      (hmembers : List.Forall₂ (fun p b => b.name.name = p.1 ∧ p.2.WrittenAs b.value)
        d.nodes members) :
      WrittenAs d (.mk (.new typeName (.mk (.record members) inside)) location)

/-- Where every node only requires nodes of lower rank, none requires itself. -/
theorem not_cyclic_of_rank {d : Design} (rank : String → Nat)
    (h : ∀ a b, d.Requires a b → rank b < rank a) : ¬d.Cyclic := by
  rintro ⟨a, ha⟩
  have hlower : Relation.TransGen (· > ·) (rank a) (rank a) := ha.lift rank h
  rw [Relation.transGen_eq_self] at hlower
  exact Nat.lt_irrefl _ hlower

end Design

end NetDesc
