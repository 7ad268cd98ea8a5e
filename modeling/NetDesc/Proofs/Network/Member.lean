import NetDesc.Proofs.Network.Exact

namespace NetDesc

namespace Network

/-- A node that can be reached from the fields of the network carries this name. A network shows
    its nodes first, and fields only under names that no node has. -/
def Shows (s : Store) (n : Network) (name : String) (node : NodeId) : Prop :=
  s.Reaches ((s.memberNodes n.fields).map .node) (.node node) ∧ (s.node node).name = name

/-- Names find nodes, and all nodes that can be reached are found. -/
theorem Sound.find?_eq_some_iff {s : Store} {n : Network} (hn : n.Sound s) {name : String}
    {node : NodeId} : n.find? name = some node ↔ n.Shows s name node := by
  constructor
  · intro hfound
    obtain ⟨before, after, hnodes, -⟩ := List.lookup_eq_some_iff.1 hfound
    have hmem : (name, node) ∈ n.nodes := by simp [hnodes]
    refine ⟨(hn.order.mem_iff_reaches _).1 ?_, (hn.named _ hmem).1⟩
    exact List.mem_map.2 ⟨_, hmem, rfl⟩
  · rintro ⟨hreach, rfl⟩
    obtain ⟨⟨name, _⟩, hmem, ⟨⟩⟩ := List.mem_map.1 ((hn.order.mem_iff_reaches _).2 hreach)
    rw [(hn.named _ hmem).1]
    exact lookup_eq_some_of_mem hn.distinct hmem

end Network

namespace Program

variable {carryOut : (c : Call) → Store → Outcome c.Reply} {s : Store} {v : Value} {id : NetworkId}
  {name : String}

theorem run_memberOf_network (hv : v.payload = .object (.network id)) (location : Location) :
    (memberOf v name location).run carryOut s =
      ((networkMember id name).run carryOut s).bind fun found t =>
        (forceFound found (.unknownIdentifier name location)).run carryOut t := by
  rw [memberOf, memberCell?, hv]
  exact run_bind carryOut _ _ s

/-- A node that a network holds is put into a new cell under the name of the member. -/
theorem run_memberOf_node (hv : v.payload = .object (.network id)) {node : NodeId}
    (hnode : (s.network id).find? name = some node) (location : Location) :
    (memberOf v name location).run carryOut s =
      let shown : Value := .object (.node node) (s.network id).location name
      carryOut (.force s.cells.size) { s with cells := s.cells.push (.ready shown) } := by
  rw [run_memberOf_network hv, networkMember, run_readNetwork_bind, hnode]
  exact run_call carryOut _ _

theorem run_memberOf_field (hv : v.payload = .object (.network id))
    (hnode : (s.network id).find? name = none) {m : Member}
    (hm : (s.record (s.network id).fields).find? name = some m) (location : Location) :
    (memberOf v name location).run carryOut s = carryOut (.force m.cell) s := by
  rw [run_memberOf_network hv, networkMember, run_readNetwork_bind, hnode]
  change (forceFound (((s.record (s.network id).fields).find? name).map (·.cell)) _).run _ s = _
  rw [hm]
  exact run_call carryOut (.force m.cell) s

end Program

namespace Store

/-- A record's own members come before those of the records around it. -/
theorem find?_of_own {s : Store} {r : RecordId} {name : String} {m : Member}
    (hm : (s.record r).find? name = some m) : s.find? r name = some m := by
  rw [find?, List.findSome?_cons, hm]

end Store

namespace Network

/-- Whatever a session is doing, a member of a network whose name is that of a field can be
    accessed. It is the node of this name if the network has one, and otherwise it is what the
    field holds, which is what the name stands for inside the record. -/
theorem member_agrees {s t : Store} (hs : Session .standard s) {ev : Evaluator}
    (hev : ev.registry = .standard) {r : Request} (hr : r.Valid s) {fuel : Nat}
    (ht : ev.Serves fuel r s t) {v : Value} {id : NetworkId}
    (hv : v.payload = .object (.network id)) (hid : id < t.networks.size) {name : String}
    {m : Member} (hm : (t.record (t.network id).fields).find? name = some m)
    (location : Location) (more depth : Nat) :
    ∃ (held given : Value) (u : Store),
      (t.cell m.cell).progress = .finished held ∧
      (Program.lookup (t.network id).fields name location).run (ev.carryOut (more + 1) depth) t =
        .value held t ∧
      (Program.memberOf v name location).run (ev.carryOut (more + 1) depth) t = .value given u ∧
      (∀ node, (t.network id).Shows t name node → given.payload = .object (.node node)) ∧
      ((∀ node, ¬(t.network id).Shows t name node) → given = held) := by
  obtain ⟨hwf, -⟩ := hs.serves_keeps Registry.standard_sound hev hr ht
  obtain ⟨-, hsound⟩ := hwf.network id hid
  obtain ⟨p, hp, rfl⟩ := Option.map_eq_some_iff.1 hm
  obtain ⟨held, hheld⟩ : ∃ held, (t.cell p.2.cell).progress = .finished held := by
    have hfinished := hsound.settled p (Array.mem_of_find?_eq_some hp)
    unfold Cell.isFinished at hfinished
    split at hfinished
    · exact ⟨_, ‹_›⟩
    · cases hfinished
  have hforce := ev.carryOut_force_finished more depth hheld
  have hlookup := (Program.run_lookup location (Store.find?_of_own hm)).trans hforce
  cases hnode : (t.network id).find? name with
  | some node =>
    let shown : Value := .object (.node node) (t.network id).location name
    let u : Store := { t with cells := t.cells.push (.ready shown) }
    have hshown : (u.cell t.cells.size).progress = .finished shown := by simp [u, Cell.ready]
    refine ⟨held, shown, u, hheld, hlookup, ?_, fun node' hshows => ?_, fun hnone => ?_⟩
    · rw [Program.run_memberOf_node hv hnode]
      exact ev.carryOut_force_finished more depth hshown
    · rw [← hsound.find?_eq_some_iff, hnode] at hshows
      cases hshows
      rfl
    · exact absurd (hsound.find?_eq_some_iff.1 hnode) (hnone node)
  | none =>
    refine ⟨held, held, t, hheld, hlookup, ?_, fun node hshows => ?_, fun _ => rfl⟩
    · rw [Program.run_memberOf_field hv hnode hm]
      exact hforce
    · rw [← hsound.find?_eq_some_iff, hnode] at hshows
      cases hshows

/-- The second network takes over the node of the first one, which has the name of a field. -/
def hidingExpr : Expr :=
  .ofMembers [
    .ofName "inner" (networkExpr [.ofName "x" inputExpr]),
    .ofName "outer" (networkExpr [.ofName "x" (.ofText "field"),
      .ofName "y" (.dot (.ofName "inner") "x")]),
    .ofName "r" (.dot (.ofName "outer") "x")]

/-- The member that is no node's name is what the field of its name holds. -/
theorem member_agrees_hiding : ∃ (t : Store) (m : Member) (held given : Value) (u : Store),
    ({} : Evaluator).Serves 60 (.evaluate (hidingExpr.dot "r")) {} t ∧
      (t.cell m.cell).progress = .finished held ∧
      (Program.memberOf (.object (.network 1) .unknown "") "y" .unknown).run
        (({} : Evaluator).carryOut 1 0) t = .value given u ∧
      (t.network 1).find? "y" = none ∧
      ((∀ node, ¬(t.network 1).Shows t "y" node) → given = held) := by
  have hrun : ((({} : Evaluator).run 60 (Request.program {} (.evaluate (hidingExpr.dot "r")))
      {}).store?.map fun t => (t.networks.size, (t.network 1).find? "y",
        ((t.record (t.network 1).fields).find? "y").isSome)) = some (2, none, true) := by
    decide +kernel
  obtain ⟨t, ht, heq⟩ := Option.map_eq_some_iff.1 hrun
  simp only [Prod.mk.injEq] at heq
  obtain ⟨hsize, hnode, hfield⟩ := heq
  obtain ⟨m, hm⟩ := Option.isSome_iff_exists.1 hfield
  have hserves : ({} : Evaluator).Serves 60 (.evaluate (hidingExpr.dot "r")) {} t :=
    Evaluator.serves_of_store? ht
  have hvalid : Request.Valid {} (.evaluate (hidingExpr.dot "r")) := trivial
  obtain ⟨held, given, u, hheld, -, hgiven, -, hagrees⟩ :=
    member_agrees .start rfl hvalid hserves (v := .object (.network 1) .unknown "") rfl
      (hsize ▸ by decide) hm .unknown 0 0
  exact ⟨t, m, held, given, u, hserves, hheld, hgiven, hnode, hagrees⟩

/-- A node hides the field of its name: `outer.x` is the node that was taken over, while `x` inside
    the record of `outer` is a string. -/
theorem member_hidden : ∃ (r : Value) (s : Store),
    ({} : Evaluator).evaluateMember 60 hidingExpr "r" {} = .value r s ∧
      r.asObject = .ok (.node 0) ∧ ∃ (outer : Value) (t : Store),
        ({} : Evaluator).run 1 (Program.lookup 1 "outer" .unknown) s = .value outer t ∧
          outer.asObject = .ok (.network 1) ∧ ∃ (held : Value) (u : Store),
            ({} : Evaluator).run 1 (Program.lookup (t.network 1).fields "x" .unknown) t =
              .value held u ∧ held.asText = .ok "field" := by
  let ev : Evaluator := {}
  have hrun : ((ev.evaluateMember 60 hidingExpr "r" {}).value?.bind fun (r, s) =>
      (ev.run 1 (Program.lookup 1 "outer" .unknown) s).value?.bind fun (outer, t) =>
        (ev.run 1 (Program.lookup (t.network 1).fields "x" .unknown) t).value?.map fun (held, _) =>
          (r.asObject, outer.asObject, held.asText)) =
      some (.ok (.node 0), .ok (.network 1), .ok "field") := by
    decide +kernel
  obtain ⟨⟨r, s⟩, hr, hrun⟩ := Option.bind_eq_some_iff.1 hrun
  obtain ⟨⟨outer, t⟩, houter, hrun⟩ := Option.bind_eq_some_iff.1 hrun
  obtain ⟨⟨held, u⟩, hheld, hrun⟩ := Option.map_eq_some_iff.1 hrun
  simp only [Prod.mk.injEq] at hrun
  obtain ⟨hnode, hnetwork, htext⟩ := hrun
  exact ⟨r, s, Outcome.value?_eq_some hr, hnode, outer, t, Outcome.value?_eq_some houter, hnetwork,
    held, u, Outcome.value?_eq_some hheld, htext⟩

end Network

end NetDesc
