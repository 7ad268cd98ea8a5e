import NetDesc.Expr.Build
import NetDesc.Proofs.Session

namespace NetDesc

namespace Network

/-- What a network is to hold and how it is to be sorted, read off the store as it is: the nodes
    that can be reached from those among its fields and no others, under their current names, and
    sorted by what they are for. -/
structure Exact (s : Store) (n : Network) : Prop where
  /-- All fields have been computed, so the nodes among them are known. -/
  fields : ∀ p ∈ (s.record n.fields).members, (s.cell p.2.cell).isFinished = true
  /-- The least set that holds the nodes among the fields and is closed under children. -/
  nodes : ∀ id, id ∈ n.nodes.map (·.2) ↔
    s.Reaches ((s.memberNodes n.fields).map .node) (.node id)
  once : (n.nodes.map (·.2)).Nodup
  /-- Nodes come in the order in which a breadth-first walk finds them. -/
  discovery : s.Discovers ((s.memberNodes n.fields).map .node) [] (n.nodes.map fun p => .node p.2)
  named : ∀ p ∈ n.nodes, p.1 = (s.node p.2).name ∧ p.1 ≠ ""
  finalized : ∀ p ∈ n.nodes, (s.node p.2).isFinalized = true
  inputs : n.inputs =
    (n.nodes.filter fun p => (s.node p.2).operation = .inputValue).map (·.1)
  parameters : n.parameters =
    (n.nodes.filter fun p => (s.node p.2).operation = .learnableParameter).map (·.1)
  outputs : n.outputs =
    (n.nodes.filter fun p => ∀ q ∈ n.nodes, p.2 ∉ (s.node q.2).inputs).map (·.1)

/-- A sound network holds what it should. -/
theorem Sound.exact {s : Store} {n : Network} (hn : n.Sound s) : n.Exact s := by
  have hmem (id : NodeId) : id ∈ n.nodes.map (·.2) ↔ Object.node id ∈ n.objects := by
    simp [Network.objects]
  have hnodup : n.objects.Nodup := hn.order.nodup List.nodup_nil
  refine {
    fields := hn.settled
    nodes := fun id => (hmem id).trans (hn.order.mem_iff_reaches _)
    once := ?_
    discovery := hn.order
    named := fun p hp => ⟨(hn.named p hp).1.symm, (hn.named p hp).2⟩
    finalized := fun p hp => by rw [Node.isFinalized, hn.tied p hp]; rfl
    inputs := hn.inputs
    parameters := hn.parameters
    outputs := ?_ }
  · have hmap : n.objects = (n.nodes.map (·.2)).map Object.node := by
      rw [List.map_map]
      rfl
    rw [hmap] at hnodup
    exact List.Pairwise.of_map _ (fun _ _ hne heq => hne (congrArg Object.node heq)) hnodup
  · rw [hn.outputs, namesOfUnused]
    refine congrArg _ (List.filter_congr fun p _ => ?_)
    rw [Bool.eq_iff_iff]
    simp

/-- While any request of a session is answered, no network changes and all are exact. -/
theorem exact_throughout {s t : Store} (hs : Session .standard s) {ev : Evaluator}
    (hev : ev.registry = .standard) {r : Request} (hr : r.Valid s) {fuel : Nat}
    (ht : ev.Serves fuel r s t) :
    (∀ id < s.networks.size, t.network id = s.network id) ∧
      ∀ id < t.networks.size, (t.network id).Exact t := by
  obtain ⟨hwf, hext⟩ := hs.serves_keeps Registry.standard_sound hev hr ht
  exact ⟨hext.network, fun id hid => (hwf.network id hid).2.exact⟩

/-- A node of a class, described by its other fields. -/
def nodeExpr (className : String) (fields : List (String × ExprKind)) : ExprKind :=
  let expr (kind : ExprKind) : Expr := .mk kind .unknown
  let members := ("class", .text className) :: fields
  .new { name := "ComputationNode" }
    (expr (.record (members.map fun p => .mk { name := p.1 } (expr p.2))))

/-- A node that reads an input. -/
def inputExpr : Expr :=
  .ofKind (nodeExpr "InputValue" [])

/-- A network of these members. -/
def networkExpr (members : List Binding) : Expr :=
  .instantiate "ComputationNetwork" (.ofMembers members)

/-- A network with a cycle through a delay: the sum of an input and its own last value. -/
def recurrentExpr : Expr :=
  let expr (kind : ExprKind) : Expr := .mk kind .unknown
  expr (.new { name := "ComputationNetwork" } (expr (.record
    [.mk { name := "x" } (expr (nodeExpr "InputValue" [])),
      .mk { name := "d" } (expr (nodeExpr "DelayNode"
        [("input", .var "p"), ("deltaT", .number 1)])),
      .mk { name := "p" } (expr (nodeExpr "PlusNode"
        [("inputs", .array [expr (.var "x"), expr (.var "d")])]))])))

/-- The network with a cycle is built, and it is exact when the request has been answered. -/
theorem exact_throughout_recurrent :
    ∃ t, ({} : Evaluator).Serves 40 (.evaluate recurrentExpr) {} t ∧
      (t.network 0).names = ["x", "d", "p"] ∧ (t.network 0).Exact t := by
  have hrun : ((({} : Evaluator).run 40 (Request.program {} (.evaluate recurrentExpr))
      {}).store?.map fun t => (t.networks.size, (t.network 0).names)) =
        some (1, ["x", "d", "p"]) := by
    decide +kernel
  obtain ⟨t, ht, hnetworks⟩ := Option.map_eq_some_iff.1 hrun
  rw [Prod.mk.injEq] at hnetworks
  have hserves : ({} : Evaluator).Serves 40 (.evaluate recurrentExpr) {} t :=
    Evaluator.serves_of_store? ht
  have hvalid : Request.Valid {} (.evaluate recurrentExpr) := trivial
  have hexact := (exact_throughout .start rfl hvalid hserves).2 0 (by omega)
  exact ⟨t, hserves, hnetworks.2, hexact⟩

end Network

end NetDesc
