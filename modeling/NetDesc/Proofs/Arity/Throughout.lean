import NetDesc.Proofs.Arity.Sources
import NetDesc.Proofs.Arity.Ties
import NetDesc.Proofs.Network.Exact

namespace NetDesc

namespace Node

/-- The node has as many inputs as it should have. -/
structure Supplied (s : Store) (n : Node) : Prop where
  /-- What the class counts, where it counts nodes only. -/
  counted : ∀ count, n.operation.inputCount? = some count → n.operation ≠ .scale →
    n.inputs.length = count
  /-- The first of the two inputs of a scale node is a number. -/
  scale : n.operation = .scale → n.inputs.length = 1
  source : n.operation = .inputValue ∨ n.operation = .learnableParameter → n.inputs = []
  pending : n.operation = .delay → n.isFinalized = false → n.inputs = []
  finalized : n.operation = .delay → n.isFinalized = true → n.inputs.length = 1
  /-- Nothing but delays is ever left to be finalized. -/
  immediate : n.operation ≠ .delay → n.isFinalized = true
  nodes : ∀ input ∈ n.inputs, input < s.nodes.size

namespace Valid

variable {s : Store} {n : Node}

theorem supplied (hn : n.Valid s) : n.Supplied s where
  counted count hcount hscale := by
    rw [hn.arity]
    cases hop : n.operation <;> simp_all [Node.arity, Operation.inputCount?]
  scale hop := by simp [hn.arity, Node.arity, hop]
  source hop := by
    apply List.length_eq_zero_iff.1
    rw [hn.arity]
    rcases hop with hop | hop <;> simp [Node.arity, hop, Operation.inputCount?]
  pending hop hpending := by
    apply List.length_eq_zero_iff.1
    simp [hn.arity, Node.arity, hop, hpending]
  finalized hop hfinalized := by simp [hn.arity, Node.arity, hop, hfinalized]
  immediate hop := by
    rw [isFinalized, Option.isNone_iff_eq_none]
    by_contra hsome
    obtain ⟨c, hc⟩ := Option.ne_none_iff_exists'.1 hsome
    exact hop (hn.delay c hc)
  nodes := hn.inputs

/-- A node that waits has no input yet. -/
theorem waits (hn : n.Valid s) {c : CellId} (hc : n.pendingInput = some c) :
    n.isFinalized = false ∧ n.inputs = [] := by
  have hpending : n.isFinalized = false := by simp [isFinalized, hc]
  exact ⟨hpending, hn.supplied.pending (hn.delay c hc) hpending⟩

end Valid

end Node

namespace Evaluator

variable {ev : Evaluator} {fuel depth : Nat} {s u : Store} {e : EvalError}

/-- If a cell cannot be computed, all nodes that wait for it go on waiting. While it is computed
    nothing can tie them, and nothing does when that fails. -/
theorem waits_of_force_error (hr : ev.registry.Sound) (hs : s.WellFormed s.records.size)
    {c : CellId} (hc : c < s.cells.size)
    (h : (ev.carryOut fuel depth (.force c) s : Outcome Value) = .error e u) {n : NodeId}
    (hn : n < s.nodes.size) (hwaits : (s.node n).pendingInput = some c) :
    (u.node n).pendingInput = some c := by
  cases fuel with
  | zero =>
    rw [carryOut_zero] at h
    cases h
  | succ fuel =>
    cases hprogress : (s.cell c).progress with
    | finished v =>
      rw [carryOut_force_finished ev fuel depth hprogress] at h
      cases h
    | running =>
      rw [carryOut_force_running ev fuel depth hprogress] at h
      cases h
      exact hwaits
    | pending =>
      rw [carryOut_force_pending ev fuel depth hprogress] at h
      obtain ⟨t, ht, rfl⟩ := settle_eq_error h
      have hkept := carryOut_promised hr fuel depth (.perform (s.cell c).task) _
        (hs.start hprogress) (hs.task_valid hc)
      rw [ht] at hkept
      have hrunning : ((s.setProgress c .running).cell c).progress = .running := by
        rw [Store.setProgress_cell_self hc]
      exact hkept.2.waiting n hn c hwaits hrunning

/-- A node that could not be finalized has no input and is still to be finalized. -/
theorem finalize_failed (hr : ev.registry.Sound) (hs : s.WellFormed s.records.size) {id : NodeId}
    (hid : id < s.nodes.size)
    (h : (Node.finalize id).run (ev.carryOut fuel depth) s = .error e u) :
    (u.node id).isFinalized = false ∧ (u.node id).inputs = [] := by
  rw [Node.finalize, Program.run_readNode_bind] at h
  cases hpending : (s.node id).pendingInput with
  | none =>
    rw [hpending] at h
    cases h
  | some c =>
    have hc := (hs.node id hid).pendingInput c hpending
    have hkept := carryOut_promised hr fuel depth (.force c) s hs hc
    have hrun : (Program.force c).run (ev.carryOut fuel depth) s =
        (ev.carryOut fuel depth (.force c) s : Outcome Value) := Program.run_call _ _ s
    rw [hpending, Program.run_bind, hrun] at h
    have hwaits {t : Store} (hwf : t.WellFormed t.records.size) (hst : s.Grows s.records.size t)
        (ht : (t.node id).pendingInput = some c) :
        (t.node id).isFinalized = false ∧ (t.node id).inputs = [] :=
      (hwf.node id (Nat.lt_of_lt_of_le hid hst.covers.nodes)).waits ht
    cases hforce : (ev.carryOut fuel depth (.force c) s : Outcome Value) with
    | value v t =>
      rw [hforce] at h hkept
      obtain ⟨hwf, hst, -, -, hstill⟩ := hkept
      change (Program.ofExcept (Value.asNode v) >>= Program.tieInput id).run _ t = _ at h
      cases hinput : Value.asNode v with
      | ok input =>
        rw [hinput] at h
        cases h
      | error e' =>
        rw [hinput] at h
        cases h
        exact hwaits hwf hst (hstill id hid hpending)
    | error e' t =>
      rw [hforce] at h hkept
      cases h
      exact hwaits hkept.1 hkept.2 (waits_of_force_error hr hs hc hforce hid hpending)
    | exhausted =>
      rw [hforce] at h
      cases h

end Evaluator

namespace Session

variable {ties : List NodeId} {s t : Store} {ev : Evaluator} {r : Request}

/-- Whatever has been asked for in a session, and while the next request is answered, every node
    has as many inputs as it should have, and all of them are nodes. A node that has been finalized
    keeps its inputs. In the whole session no node is tied twice. A node that could not be finalized
    has no input and is still to be finalized. And nobody ever reports that a node has no inputs. -/
theorem nodes_supplied (hs : Tying .standard ties s) (hev : ev.registry = .standard)
    (hr : r.Valid s) {fuel : Nat} (ht : ev.Serves fuel r s t) :
    (∀ id < t.nodes.size, (t.node id).Supplied t ∧
      ∀ child ∈ t.children (.node id), ∃ input < t.nodes.size, child = .node input) ∧
    (∀ id < s.nodes.size, (s.node id).isFinalized = true →
      (t.node id).isFinalized = true ∧ (t.node id).inputs = (s.node id).inputs) ∧
    (ties ++ r.ties ev fuel s).Nodup ∧
    (∀ id < t.nodes.size, ∀ (more depth : Nat) (e : EvalError) (u : Store),
      (Node.finalize id).run (ev.carryOut more depth) t = .error e u →
        (u.node id).isFinalized = false ∧ (u.node id).inputs = []) ∧
    ∀ e, .raised e ∈ r.history ev fuel s → ∀ name op, e.cause ≠ Network.sourceless name op := by
  have hsound : ev.registry.Sound := hev ▸ Registry.standard_sound
  have hsession := hs.session
  obtain ⟨hwf, hext⟩ := hsession.serves_keeps Registry.standard_sound hev hr ht
  obtain ⟨honce, htied⟩ := hs.once Registry.standard_sound
  have hmore := Tying.request_tiesOnce Registry.standard_sound hsession hev hr fuel
  refine ⟨fun id hid => ⟨(hwf.node id hid).supplied, fun child hchild => ?_⟩,
    fun id hid hfinal => ?_, hmore.nodup_append honce htied, fun id hid more depth e u h => ?_, ?_⟩
  · obtain ⟨input, hinput, rfl⟩ := List.mem_map.1 hchild
    exact ⟨input, (hwf.node id hid).inputs input hinput, rfl⟩
  · simp only [Node.isFinalized, Option.isNone_iff_eq_none] at hfinal ⊢
    exact (hext.node id hid).tied hfinal
  · exact Evaluator.finalize_failed hsound hwf hid h
  · exact Request.history_sourced hev (hsession.wellFormed Registry.standard_sound) hr fuel

/-- A network of a delay that waits for a string. -/
def strayExpr : Expr :=
  let stray := Network.nodeExpr "DelayNode" [("input", .text "p"), ("deltaT", .number 1)]
  Network.networkExpr [.ofName "d" (.ofKind stray)]

/-- The delay that waits for a string is left as it is when the network fails, and that of the next
    network is tied once. -/
theorem nodes_supplied_stray : ∃ s t,
    (({} : Evaluator).run 40 (Request.program {} (.evaluate strayExpr)) {}).error?.isSome ∧
      ({} : Evaluator).Serves 40 (.evaluate Network.recurrentExpr) s t ∧
      (Request.evaluate Network.recurrentExpr).ties {} 40 s = [2] ∧ t.nodes.size = 4 ∧
      (t.node 0).isFinalized = false ∧ (t.node 2).isFinalized = true ∧
      ∀ id < t.nodes.size, (t.node id).Supplied t := by
  let ev : Evaluator := {}
  have hrun : ((ev.run 40 (Request.program ev (.evaluate strayExpr)) {}).error?.bind fun (_, s) =>
      (ev.run 40 (Request.program ev (.evaluate Network.recurrentExpr)) s).store?.map fun t =>
        ((Request.evaluate Network.recurrentExpr).ties ev 40 s, t.nodes.size,
          (t.node 0).isFinalized, (t.node 2).isFinalized)) = some ([2], 4, false, true) := by
    decide +kernel
  obtain ⟨⟨e, s⟩, hs, hrun⟩ := Option.bind_eq_some_iff.1 hrun
  obtain ⟨t, ht, hrun⟩ := Option.map_eq_some_iff.1 hrun
  simp only [Prod.mk.injEq] at hrun
  obtain ⟨hties, hsize, hstray, hdelay⟩ := hrun
  have hfailed : (ev.run 40 (Request.program ev (.evaluate strayExpr)) {}).store? = some s := by
    rw [Outcome.error?_eq_some hs]
    rfl
  have hvalid (root : Expr) (s : Store) : Request.Valid s (.evaluate root) := trivial
  have hsession := Tying.start.request rfl (hvalid strayExpr {}) hfailed
  have hserves : ev.Serves 40 (.evaluate Network.recurrentExpr) s t :=
    Evaluator.serves_of_store? ht
  obtain ⟨hnodes, -⟩ := nodes_supplied hsession rfl (hvalid _ s) hserves
  refine ⟨s, t, ?_, hserves, hties, hsize, hstray, hdelay, fun id hid => (hnodes id hid).1⟩
  rw [hs]
  rfl

end Session

end NetDesc
