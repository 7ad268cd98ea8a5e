import NetDesc.Proofs.Network.Exact
import NetDesc.Proofs.Recurrence.Build

namespace NetDesc

open Outcome (Eventually)

namespace Design

/-- The value is a network of exactly these nodes. They are known by the names of the members, in
    their order, and their inputs are the nodes that have the names of the inputs. -/
def Built (d : Design) (v : Value) (t : Store) : Prop :=
  ∃ id, v.payload = .object (.network id) ∧ (t.network id).names = d.names ∧
    ∀ a n, (a, n) ∈ d.nodes → ∃ k inputs, (t.network id).find? a = some k ∧
      t.node k = n.node a inputs ∧
      List.Forall₂ (fun b i => (t.network id).find? b = some i) n.inputs inputs

variable {d : Design} {ev : Evaluator} {depth : Nat} {r : RecordId} {s t : Store}

/-- Members that have been laid out have not been accessed. -/
theorem underway_of_lays {members : List Binding} {outer : RecordId}
    (hmembers : List.Forall₂ (fun p b => b.name.name = p.1 ∧ p.2.WrittenAs b.value) d.nodes members)
    (h : s.Lays outer "" members r t) : d.Underway r [] t := by
  have hfound {a n} (ha : (a, n) ∈ d.nodes) : ∃ m e, (t.record r).find? a = some m ∧
      m.cell < t.cells.size ∧ (t.cell m.cell).task = .evaluate e r a ∧ n.WrittenAs e ∧
      (t.cell m.cell).progress = .pending := by
    obtain ⟨b, hb, rfl, hn⟩ := exists_right_of_forall₂ hmembers ha
    obtain ⟨m, hm⟩ := h.holds b hb
    exact ⟨m, b.value, hm.found, hm.inside, hm.task.trans (by simp [joinPath]), hn, hm.pending⟩
  refine ⟨h.inside, fun a n ha => ?_, fun a ha m hm => ?_, fun a n ha m v hm hv => ?_⟩
  · obtain ⟨m, e, hm, hlt, htask, hn, -⟩ := hfound ha
    exact ⟨m, e, hm, hlt, htask, hn⟩
  · obtain ⟨⟨a, n⟩, hmem, rfl⟩ := List.mem_map.1 ha
    obtain ⟨m', _, hm', -, -, -, hpending⟩ := hfound hmem
    cases hm.symm.trans hm'
    simp [hpending]
  · obtain ⟨m', _, hm', -, -, -, hpending⟩ := hfound ha
    cases hm.symm.trans hm'
    rw [hpending] at hv
    cases hv

/-- The nodes of all members, under their names, are the network. -/
theorem built_of_complete {ids : List NodeId} {net : Network} {v : Value} {id : NetworkId}
    (hs : d.Complete r ids s) (htied : d.TiedAll r ids s)
    (hnodes : net.nodes = ids.map fun k => ((s.node k).name, k))
    (hv : v.payload = .object (.network id)) (hnet : t.network id = net)
    (hsame : t.nodes = s.nodes) : d.Built v t := by
  have hnames : net.names = d.names := by
    rw [Network.names, hnodes, List.map_map]
    exact hs.names_eq
  have hfind {a k} (ha : a ∈ d.names) (hk : s.MemberIs r a k) : net.find? a = some k := by
    obtain ⟨⟨a, n⟩, hmem, rfl⟩ := List.mem_map.1 ha
    obtain ⟨k', hk', hmember⟩ := hs.exists_node (List.mem_map_of_mem hmem)
    obtain rfl := hk.unique hmember
    have hname := Store.name_of_wired_or_waits (hs.node a n k hmem hk).2
    have hdistinct : net.names.Nodup := hnames ▸ d.distinct
    refine lookup_eq_some_of_mem hdistinct ?_
    rw [hnodes]
    exact List.mem_map.2 ⟨k, hk', by rw [hname]⟩
  refine ⟨id, hv, hnet ▸ hnames, fun a n ha => ?_⟩
  obtain ⟨k, hk, hmember⟩ := hs.exists_node (List.mem_map_of_mem ha)
  obtain ⟨inputs, hx, hinputs⟩ := htied a n k ha hmember hk
  have hall := (List.forall₂_and_left _ _).2 ⟨d.closed (a, n) ha, hinputs⟩
  rw [hnet]
  refine ⟨k, inputs, hfind (List.mem_map_of_mem ha) hmember, ?_,
    hall.imp fun b i h => hfind h.1 h.2⟩
  rw [Store.node, hsame]
  exact hx

end Design

namespace Evaluator

variable {d : Design} {ev : Evaluator} {depth : Nat} {r : RecordId} {s : Store}

theorem construct_network_ends (hev : ev.registry = .standard) (hexact : d.Exact)
    (hdepth : depth + 3 * d.nodes.length < ev.maxDepth) (hnames : (s.record r).names = d.names)
    (hs : d.Underway r [] s) (location : Location) (path : String) :
    (Network.construct r location path).Ends ev depth s (fun t v => ¬d.Cyclic ∧ d.Built v t ∧
      ∃ id, v.payload = .object (.network id)) d.Cyclic := by
  refine .bind (Network.ofFields_ends hev hexact hdepth hnames hs location) ?_
  rintro t net ⟨hacyclic, ids, ht, htied, hnodes⟩
  refine .after (.pure ⟨hacyclic, ?_, _, rfl⟩)
  refine Design.built_of_complete ht htied hnodes rfl ?_ rfl
  exact (Store.network_push t net _).trans (if_pos rfl)

/-- Evaluating a network that is written down as a record of nodes gives it, or else its nodes
    require one another in a circle. There may be as many nodes as the depth limit has room for. -/
theorem evaluate_network_ends (hev : ev.registry = .standard) (hexact : d.Exact) {e : Expr}
    (he : d.WrittenAs e) (hdepth : 3 * d.nodes.length + 1 < ev.maxDepth) (s : Store)
    (scope : RecordId) (path : String) :
    (Program.evaluate e scope path).Ends ev 0 s (fun t v => ¬d.Cyclic ∧ d.Built v t)
      d.Cyclic := by
  obtain ⟨htype, hmembers⟩ := he
  have hnames : ∀ {members : List Binding}, List.Forall₂
      (fun (p : String × NodeDesign) b => b.name.name = p.1 ∧ p.2.WrittenAs b.value)
        d.nodes members → members.map (·.name.name) = d.names := by
    intro members h
    rw [Design.names, ← List.forall₂_eq_eq_eq, List.forall₂_map_left_iff,
      List.forall₂_map_right_iff]
    exact h.flip.imp fun _ _ hb => hb.1
  refine .evaluate (by omega) ?_
  refine .check (a := Network.runtimeType) (by rw [hev, htype]; rfl) ?_
  refine .bind (evaluate_record_ends rfl ?_ (by omega) s scope "") ?_
  · rw [hnames hmembers]
    exact d.distinct
  rintro t v ⟨r, hv, hlays⟩
  have hrecord : v.asRecord = .ok r := by rw [Value.asRecord, hv]
  refine .check hrecord ?_
  refine .bind (construct_network_ends hev hexact (by omega) (hlays.names.trans (hnames hmembers))
    (Design.underway_of_lays hmembers hlays) _ path) ?_
  rintro u w ⟨hacyclic, hbuilt, id, hw⟩
  rw [hw]
  exact .after (.pure ⟨hacyclic, hbuilt⟩)

end Evaluator

namespace Design

/-- A network is accepted iff no node requires itself other than through a delay. An accepted
    network has the nodes that were designed; any other fails because a cell depends on its own
    value. -/
theorem accepted_iff_not_cyclic (d : Design) (hexact : d.Exact) {e : Expr} (he : d.WrittenAs e)
    {ev : Evaluator} (hev : ev.registry = .standard)
    (hdepth : 4 * d.nodes.length + 8 ≤ ev.maxDepth) (s : Store) :
    ∃ o, Eventually (fun fuel => ev.evaluateTopLevel fuel e s) o ∧
      ((∃ v t, o = .value v t) ↔ ¬d.Cyclic) ∧
      (∀ v t, o = .value v t → d.Built v t) ∧
      ((¬∃ v t, o = .value v t) → ∃ err t path, o = .error err t ∧
        err.cause = .cyclicEvaluation path) := by
  have hends : (ev.wholeTree e).Ends ev 0 s (fun t v => ¬d.Cyclic ∧ d.Built v t) d.Cyclic :=
    .after (Evaluator.evaluate_network_ends hev hexact he (by omega) _ _ _)
  obtain ⟨o, ho, hconcludes⟩ := hends
  refine ⟨o, ho, ?_⟩
  cases o with
  | value v t =>
    refine ⟨⟨fun _ => hconcludes.1, fun _ => ⟨v, t, rfl⟩⟩, ?_, fun h => absurd ⟨v, t, rfl⟩ h⟩
    rintro _ _ ⟨⟩
    exact hconcludes.2
  | error err t =>
    obtain ⟨⟨path, hpath⟩, hcyclic⟩ := hconcludes
    refine ⟨⟨?_, fun h => absurd hcyclic h⟩, ?_, fun _ => ⟨err, t, path, rfl, hpath⟩⟩
    · rintro ⟨_, _, ⟨⟩⟩
    · rintro _ _ ⟨⟩
  | exhausted => exact hconcludes.elim

/-- The sum of an input and its own last value. -/
def recurrent : Design where
  nodes := [("x", .input), ("d", .delay "p" 1), ("p", .apply .plus ["x", "d"])]
  distinct := by decide
  named := by simp [NodeDesign.fieldNames]
  proper := by simp [NodeDesign.Proper, Operation.inputCount?]
  closed := by simp [NodeDesign.inputs]

theorem recurrent_writtenAs : recurrent.WrittenAs Network.recurrentExpr := by
  have hone : (Binary64.ofFloat 1).toInt? = some 1 := by decide +kernel
  refine .mk rfl (.cons ⟨rfl, ?_⟩ (.cons ⟨rfl, ?_⟩ (.cons ⟨rfl, ?_⟩ .nil)))
  · exact .mk rfl .input (fun _ h => h) (by decide) (by decide)
  · exact .mk rfl (.delay hone) (fun _ h => h) (by decide) (by decide)
  · exact .mk rfl (.apply rfl) (fun _ h => h) (by decide) (by decide)

theorem recurrent_not_cyclic : ¬recurrent.Cyclic := by
  -- the sum requires the other two, which require nothing
  refine not_cyclic_of_rank (fun a => if a = "p" then 1 else 0) ?_
  rintro a b ⟨n, hn, hb⟩
  simp only [recurrent, List.mem_cons, Prod.mk.injEq, List.not_mem_nil, or_false] at hn
  rcases hn with ⟨rfl, rfl⟩ | ⟨rfl, rfl⟩ | ⟨rfl, rfl⟩ <;> simp [NodeDesign.prerequisites] at hb
  rcases hb with rfl | rfl <;> decide

/-- A network with a cycle through a delay is accepted. -/
theorem accepted_iff_not_cyclic_recurrent :
    ∃ v t, Eventually (fun fuel => ({} : Evaluator).evaluateTopLevel fuel Network.recurrentExpr {})
      (.value v t) ∧ recurrent.Built v t := by
  have hexact : recurrent.Exact := by
    simp [Design.Exact, recurrent, NodeDesign.Exact, Number.maxExactInt]
  have hdepth : 4 * recurrent.nodes.length + 8 ≤ ({} : Evaluator).maxDepth := by decide
  obtain ⟨o, ho, hiff, hbuilt, -⟩ :=
    recurrent.accepted_iff_not_cyclic hexact recurrent_writtenAs rfl hdepth {}
  obtain ⟨v, t, rfl⟩ := hiff.2 recurrent_not_cyclic
  exact ⟨v, t, ho, hbuilt v t rfl⟩

/-- An input, and what it was a great number of steps ago. -/
def longDelayed : Design where
  nodes := [("x", .input), ("d", .delay "x" 9007199254740994)]
  distinct := by decide
  named := by simp [NodeDesign.fieldNames]
  proper := by simp [NodeDesign.Proper]
  closed := by simp [NodeDesign.inputs]

def longDelayedExpr : Expr :=
  let expr (kind : ExprKind) : Expr := .mk kind .unknown
  expr (.new { name := "ComputationNetwork" } (expr (.record
    [.mk { name := "x" } (expr (Network.nodeExpr "InputValue" [])),
      .mk { name := "d" } (expr (Network.nodeExpr "DelayNode"
        [("input", .var "x"), ("deltaT", .number 9007199254740994)]))])))

theorem longDelayed_writtenAs : longDelayed.WrittenAs longDelayedExpr := by
  have hlong : (Binary64.ofFloat 9007199254740994).toInt? = some 9007199254740994 := by
    decide +kernel
  refine .mk rfl (.cons ⟨rfl, ?_⟩ (.cons ⟨rfl, ?_⟩ .nil))
  · exact .mk rfl .input (fun _ h => h) (by decide) (by decide)
  · exact .mk rfl (.delay hlong) (fun _ h => h) (by decide) (by decide)

theorem longDelayed_not_cyclic : ¬longDelayed.Cyclic := by
  refine not_cyclic_of_rank (fun _ => 0) ?_
  rintro a b ⟨n, hn, hb⟩
  simp only [longDelayed, List.mem_cons, Prod.mk.injEq, List.not_mem_nil, or_false] at hn
  rcases hn with ⟨rfl, rfl⟩ | ⟨rfl, rfl⟩ <;> simp [NodeDesign.prerequisites] at hb

/-- Integers above `Number.maxExactInt` can be written down as well, but delays by them are
    rejected. -/
theorem longDelayed_not_accepted :
    longDelayed.WrittenAs longDelayedExpr ∧ ¬longDelayed.Cyclic ∧
      4 * longDelayed.nodes.length + 8 ≤ ({} : Evaluator).maxDepth ∧
      ∀ fuel, 40 ≤ fuel → ∃ err t,
        ({} : Evaluator).evaluateTopLevel fuel longDelayedExpr {} = .error err t ∧
          err.cause = .typeMismatch "integer" "9007199254740994" := by
  refine ⟨longDelayed_writtenAs, longDelayed_not_cyclic, by decide, fun fuel hfuel => ?_⟩
  obtain ⟨more, rfl⟩ := Nat.exists_eq_add_of_le' hfuel
  exact ⟨_, _, rfl, by decide +kernel⟩

end Design

end NetDesc
