import Mathlib.Data.List.Nodup
import NetDesc.Proofs.Network.Exact
import NetDesc.Proofs.Run.Reaches

namespace NetDesc

namespace Network

/-- Two nodes of a network that is being built have this name. -/
def collision (name : String) (location : Location) : EvalError :=
  .invalidArgument s!"multiple nodes with the name {name}" location

/-- The nodes that have no name yet. -/
def nameless (s : Store) (ids : List NodeId) : List NodeId :=
  ids.filter fun id => !(s.node id).isNamed

/-- The name of a node among those that were found: its own, or one made up for it, with the
    number that it has in the order in which they were found. -/
def nameGiven (s : Store) (ids : List NodeId) (id : NodeId) : String :=
  if (s.node id).isNamed then (s.node id).name else freshName ((nameless s ids).idxOf id)

section Naming

variable {carryOut : (c : Call) → Store → Outcome c.Reply} {s t : Store}
  {all done ids : List NodeId} {id : NodeId} {location : Location} {c : Collected}

/-- Some of the nodes that were found have been collected under their names. The names go back to
    the store `s` as it was when the walk was over, and nothing has happened to the other nodes. -/
structure Collected.Names (s : Store) (all done : List NodeId) (c : Collected) (t : Store) :
    Prop where
  nodes : c.nodes.toList = done.map fun id => (nameGiven s all id, id)
  distinct : (done.map (nameGiven s all)).Nodup
  count : c.unnamed = (nameless s done).length
  others : ∀ id, id ∉ done → t.node id = s.node id

theorem not_mem_of_isPrefix (hall : done ++ [id] <+: all) (hnodup : all.Nodup) : id ∉ done := by
  obtain ⟨rest, rfl⟩ := hall
  have hprefix := (List.nodup_append.1 hnodup).1
  exact fun hmem => (List.nodup_append.1 hprefix).2.2 id hmem id (by simp) rfl

/-- The name for a node is its own, or it is made up from the number of those before it that had
    none. -/
theorem nameGiven_eq (hall : done ++ [id] <+: all) (hnodup : all.Nodup) :
    nameGiven s all id =
      if (s.node id).isNamed then (s.node id).name else freshName (nameless s done).length := by
  have hnew := not_mem_of_isPrefix hall hnodup
  obtain ⟨rest, rfl⟩ := hall
  unfold nameGiven
  split
  · rfl
  · next hunnamed =>
    have hbefore : id ∉ nameless s done := fun hmem => hnew (List.mem_filter.1 hmem).1
    have hself : nameless s [id] = [id] := by simp [nameless, hunnamed]
    rw [nameless, List.filter_append, List.filter_append, List.append_assoc]
    change freshName ((nameless s done ++ (nameless s [id] ++ nameless s rest)).idxOf id) = _
    rw [List.idxOf_append_of_notMem hbefore, hself]
    simp

namespace Collected.Names

/-- The name of the next node is compared with those of the nodes before it. -/
theorem any_eq (hc : c.Names s all done t) (name : String) :
    c.nodes.any (·.1 == name) = decide (name ∈ done.map (nameGiven s all)) := by
  rw [← Array.any_toList, hc.nodes, List.any_map, Bool.eq_iff_iff]
  simp [List.any_eq_true]

variable (carryOut location)

/-- What collecting a node does: the node gets its name, unless another one has it. -/
theorem run_add (hc : c.Names s all done t) (hall : done ++ [id] <+: all) (hnodup : all.Nodup) :
    (c.add id location).run carryOut t =
      let name := nameGiven s all id
      let u := if (s.node id).isNamed then t else ((Access.rename (.node id) name).perform t).2
      if name ∈ done.map (nameGiven s all) then .error (collision name location) u
      else .value ⟨c.nodes.push (name, id), (nameless s (done ++ [id])).length,
        c.inputs ++ (s.node id).inputs⟩ u := by
  have hcheck (name : String) (unnamed : Nat) (u : Store) :
      (if c.nodes.any (·.1 == name) then
          .raise (.invalidArgument s!"multiple nodes with the name {name}" location)
        else
          return (⟨c.nodes.push (name, id), unnamed, c.inputs ++ (s.node id).inputs⟩ : Collected) :
        Program Collected).run carryOut u =
      if name ∈ done.map (nameGiven s all) then .error (collision name location) u
      else .value ⟨c.nodes.push (name, id), unnamed, c.inputs ++ (s.node id).inputs⟩ u := by
    simp only [hc.any_eq, decide_eq_true_eq]
    split <;> rfl
  have hnode := hc.others id (not_mem_of_isPrefix hall hnodup)
  have hname := nameGiven_eq (s := s) hall hnodup
  rw [← hc.count] at hname
  have hcount : (nameless s (done ++ [id])).length =
      c.unnamed + if (s.node id).isNamed then 0 else 1 := by
    rw [hc.count, nameless, nameless, List.filter_append, List.length_append]
    by_cases hnamed : (s.node id).isNamed <;> simp [hnamed]
  rw [Collected.add, Program.run_readNode_bind, hnode]
  by_cases hnamed : (s.node id).isNamed
  · rw [if_pos hnamed] at hname hcount
    simp only [hnamed, if_true, hname, hcount]
    exact hcheck _ _ t
  · rw [if_neg hnamed] at hname hcount
    rw [hname, hcount]
    simp only [hnamed, Bool.false_eq_true, if_false]
    exact hcheck _ _ _

theorem add (hc : c.Names s all done t) (hall : done ++ [id] <+: all) (hnodup : all.Nodup) :
    (nameGiven s all id ∈ done.map (nameGiven s all) ∧ ∃ u,
      (c.add id location).run carryOut t = .error (collision (nameGiven s all id) location) u) ∨
    ∃ c' u, (c.add id location).run carryOut t = .value c' u ∧ c'.Names s all (done ++ [id]) u := by
  rw [hc.run_add carryOut location hall hnodup]
  dsimp only
  split
  · next hmem => exact .inl ⟨hmem, _, rfl⟩
  · next hnew =>
    refine .inr ⟨_, _, rfl, ?_, ?_, rfl, fun k hk => ?_⟩
    · simp [hc.nodes]
    · rw [List.map_append, List.nodup_append]
      refine ⟨hc.distinct, by simp, ?_⟩
      rintro a ha b hb rfl
      exact hnew (List.mem_singleton.1 hb ▸ ha)
    · rw [List.mem_append, not_or, List.mem_singleton] at hk
      rw [← hc.others k hk.1]
      split
      · rfl
      · exact (t.node_modify _ id k).trans (if_neg fun h => hk.2 h.1.symm)

/-- Collecting all nodes gives them their names. It fails if and only if two of the names are the
    same. -/
theorem addAll (hc : c.Names s all done t) (hall : done ++ ids = all) (hnodup : all.Nodup) :
    (∃ a ∈ all, ∃ b ∈ all, a ≠ b ∧ nameGiven s all a = nameGiven s all b ∧ ∃ u,
      (c.addAll location ids).run carryOut t = .error (collision (nameGiven s all a) location) u) ∨
    ∃ c' u, (c.addAll location ids).run carryOut t = .value c' u ∧ c'.Names s all all u := by
  induction ids generalizing c done t with
  | nil =>
    rw [List.append_nil] at hall
    exact .inr ⟨c, t, rfl, hall ▸ hc⟩
  | cons id ids ih =>
    rw [List.append_cons] at hall
    have hprefix : done ++ [id] <+: all := ⟨ids, hall⟩
    rw [Collected.addAll, Program.run_bind]
    rcases hc.add carryOut location hprefix hnodup with
      ⟨hmem, u, herror⟩ | ⟨c', u, hvalue, hc'⟩
    · obtain ⟨b, hb, hsame⟩ := List.mem_map.1 hmem
      have hnew := not_mem_of_isPrefix hprefix hnodup
      refine .inl ⟨id, hprefix.subset (by simp), b, hprefix.subset (by simp [hb]), ?_, hsame.symm,
        u, ?_⟩
      · rintro rfl
        exact hnew hb
      · rw [herror]
        rfl
    · rw [hvalue]
      exact ih hc' hall

end Collected.Names

end Naming

section Walk

variable {carryOut : (c : Call) → Store → Outcome c.Reply} {s t : Store} {e : EvalError}

end Walk

/-- A node can be reached from the members of a record. -/
def Leads (s : Store) (fields : RecordId) (id : NodeId) : Prop :=
  s.Reaches ((s.memberNodes fields).map .node) (.node id)

theorem Walked.mem_iff {s : Store} {fields : RecordId} {ids : List NodeId}
    (hs : Walked s fields ids) (id : NodeId) : id ∈ ids ↔ Leads s fields id := by
  rw [Leads, ← hs.order.mem_iff_reaches]
  simp

theorem Walked.nodup {s : Store} {fields : RecordId} {ids : List NodeId}
    (hs : Walked s fields ids) : ids.Nodup :=
  (hs.order.nodup List.nodup_nil).of_map

end Network

end NetDesc
