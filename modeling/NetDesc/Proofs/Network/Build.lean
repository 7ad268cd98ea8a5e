import Mathlib.Data.List.Forall2
import NetDesc.Proofs.Program.Standard
import NetDesc.Standard

namespace NetDesc

namespace Store

variable {base : Nat} {s t : Store}

theorem WellFormed.children_valid (hs : s.WellFormed base) {o : Object} (ho : o.Valid s) :
    ∀ c ∈ s.children o, c.Valid s := by
  intro c hc
  cases o with
  | node id =>
    obtain ⟨input, hinput, rfl⟩ := List.mem_map.1 hc
    exact (hs.node id ho).inputs input hinput
  | network id =>
    obtain ⟨p, hp, rfl⟩ := List.mem_map.1 hc
    exact (hs.network id ho).2.valid p hp
  | action id => cases hc

/-- Once an object is finalized its children stay, whatever happens to the graph while other
    delays are finalized. -/
theorem children_of_extends (hst : s.Extends base t) {o : Object} (ho : o.Valid s)
    (htied : ∀ id, o = .node id → (s.node id).pendingInput = none) :
    t.children o = s.children o := by
  cases o with
  | node id => simp only [children, ((hst.node id ho).tied (htied id rfl)).2]
  | network id => simp only [children, hst.network id ho]
  | action id => rfl

end Store

namespace Network

variable {base : Nat} {s : Store}

theorem tie_ensures {work visited : List Object} (hvalid : ∀ o ∈ work ++ visited, o.Valid s) :
    (Program.tie work visited).Ensures base s fun b t found =>
      b = t.records.size ∧ s.Grows s.records.size t ∧ (Call.tie work visited).Answered s t found :=
  .call hvalid fun _ _ hgrows hreply => ⟨rfl, hgrows, hreply⟩

/-- What is left to do after an object has been visited is there as well. -/
theorem next_valid (hs : s.WellFormed base) {o : Object} {work visited : List Object}
    (hvalid : ∀ p ∈ o :: work ++ visited, p.Valid s) :
    ∀ p ∈ work ++ (s.children o).filter (!(visited ++ [o]).contains ·) ++ (visited ++ [o]),
      p.Valid s := by
  have ho : o.Valid s := hvalid o (by simp)
  intro p hp
  rcases List.mem_append.1 hp with hp | hp
  · rcases List.mem_append.1 hp with hp | hp
    · exact hvalid p (by simp [hp])
    · exact hs.children_valid ho p (List.mem_filter.1 hp).1
  · rcases List.mem_append.1 hp with hp | hp
    · exact hvalid p (by simp [hp])
    · rwa [List.mem_singleton.1 hp]

/-- An object that has been finalized is found first, and then whatever its children lead to. -/
theorem visit_ensures {o : Object} {work visited : List Object}
    (hvalid : ∀ p ∈ o :: work ++ visited, p.Valid s) (hnew : visited.contains o = false)
    (htied : ∀ id, o = .node id → (s.node id).pendingInput = none) :
    Program.Ensures (do
      let children ← Program.children o
      Program.tie (work ++ children.filter (!(visited ++ [o]).contains ·)) (visited ++ [o])) base s
      fun _ t found => (Call.tie (o :: work) visited).Answered s t found := by
  have ho : o.Valid s := hvalid o (by simp)
  refine .bind (Program.children_ensures o) ?_
  rintro b t children hwf - - ⟨rfl, rfl, rfl⟩
  refine (tie_ensures (next_valid hwf hvalid)).imp ?_
  rintro b u found - htu - ⟨-, -, hfound, hall⟩
  rw [← Store.children_of_extends htu.toExtends ho htied] at hfound
  refine ⟨.visit hnew hfound, fun p hp => ⟨(hall p hp).1, ?_⟩⟩
  rintro id rfl hout
  by_cases heq : Object.node id = o
  · exact ((htu.node id (by rwa [← heq] at ho)).tied (htied id heq.symm)).1
  · exact (hall _ hp).2 id rfl (by simp [hout, heq])

/-- A step of tying objects together answers as the whole does, given that the other steps do. -/
theorem tieStep_ensures {work visited : List Object}
    (hvalid : ∀ o ∈ work ++ visited, o.Valid s) :
    (tieStep work visited).Ensures base s fun _ t found =>
      (Call.tie work visited).Answered s t found := by
  cases work with
  | nil =>
    exact .pure ⟨.stop, fun o ho => ⟨hvalid o (by simpa using ho), fun _ _ h => absurd ho h⟩⟩
  | cons o work =>
    unfold tieStep
    dsimp only
    split
    · next hseen =>
      refine (tie_ensures fun p hp => hvalid p (List.mem_cons_of_mem _ hp)).imp ?_
      rintro b t found - - - ⟨-, -, hfound, hall⟩
      exact ⟨.skip hseen hfound, hall⟩
    · next hnew =>
      rw [Bool.not_eq_true] at hnew
      split
      · next id =>
        refine .bind (Node.finalize_ensures (hvalid (.node id) (by simp))) ?_
        intro b t _ _ hst _ htied
        refine (visit_ensures (fun p hp => (hvalid p hp).mono hst.covers) hnew ?_).imp ?_
        · rintro _ ⟨⟩
          exact htied
        · exact fun _ _ _ _ _ _ h => h
      · next hnode =>
        exact visit_ensures hvalid hnew fun id hid => absurd hid (hnode id)

/-- What the nodes that were collected so far have in common, with `ids` in the order in which they
    were found. -/
structure Collected.Sound (s : Store) (c : Collected) (ids : List NodeId) : Prop where
  order : c.nodes.toList.map (·.2) = ids
  named : ∀ p ∈ c.nodes.toList, (s.node p.2).name = p.1 ∧ p.1 ≠ ""
  distinct : (c.nodes.toList.map (·.1)).Nodup
  inputs : c.inputs = ids.flatMap fun id => (s.node id).inputs

theorem freshName_ne (count : Nat) : freshName count ≠ "" := by
  simp [freshName]

theorem Collected.Sound.push {c : Collected} {ids : List NodeId} (hc : c.Sound s ids)
    {id : NodeId} {name : String} (hname : (s.node id).name = name) (hne : name ≠ "")
    (hnew : c.nodes.any (·.1 == name) = false) (unnamed : Nat) :
    Collected.Sound s ⟨c.nodes.push (name, id), unnamed, c.inputs ++ (s.node id).inputs⟩
      (ids ++ [id]) where
  order := by simp [← hc.order]
  named p hp := by
    rw [Array.toList_push] at hp
    rcases List.mem_append.1 hp with hp | hp
    · exact hc.named p hp
    · rw [List.mem_singleton.1 hp]
      exact ⟨hname, hne⟩
  distinct := by
    rw [Array.toList_push, List.map_append, List.nodup_append]
    refine ⟨hc.distinct, by simp, ?_⟩
    rintro a ha b hb rfl
    obtain ⟨p, hp, rfl⟩ := List.mem_map.1 ha
    have hsame : p.1 = name := by simpa using hb
    have hany : c.nodes.any (·.1 == name) = true :=
      Array.any_eq_true'.2 ⟨p, Array.mem_toList_iff.1 hp, by simpa using hsame⟩
    rw [hnew] at hany
    cases hany
  inputs := by simp [hc.inputs]

theorem Collected.Sound.mono {t : Store} {c : Collected} {ids : List NodeId} (hc : c.Sound s ids)
    (hst : s.Extends base t) (hvalid : ∀ id ∈ ids, id < s.nodes.size)
    (htied : ∀ id ∈ ids, (s.node id).pendingInput = none) : c.Sound t ids where
  order := hc.order
  named p hp := by
    obtain ⟨hname, hne⟩ := hc.named p hp
    have hmem : p.2 ∈ ids := by rw [← hc.order]; exact List.mem_map_of_mem hp
    exact ⟨by rw [(hst.node p.2 (hvalid p.2 hmem)).name (by rwa [hname]), hname], hne⟩
  distinct := hc.distinct
  inputs := by
    rw [hc.inputs]
    have heq (id) (hid : id ∈ ids) : (t.node id).inputs = (s.node id).inputs :=
      ((hst.node id (hvalid id hid)).tied (htied id hid)).2
    exact List.flatMap_congr fun id hid => (heq id hid).symm

/-- Naming and collecting a node changes the store in nothing but names. -/
theorem Collected.add_ensures {c : Collected} {ids : List NodeId} {id : NodeId} (hc : c.Sound s ids)
    (hvalid : ∀ k ∈ ids ++ [id], k < s.nodes.size)
    (htied : ∀ k ∈ ids ++ [id], (s.node k).pendingInput = none) (location : Location) :
    (c.add id location).Ensures base s fun b t c' => b = base ∧ c'.Sound t (ids ++ [id]) := by
  have hpush (b : Nat) (t : Store) (name : String) (unnamed : Nat) (hst : s.Extends base t)
      (hname : (t.node id).name = name) (hne : name ≠ "") :
      Program.Ensures (if c.nodes.any (·.1 == name) then
          .raise (.invalidArgument s!"multiple nodes with the name {name}" location)
        else
          return (⟨c.nodes.push (name, id), unnamed, c.inputs ++ (s.node id).inputs⟩ : Collected))
        b t fun b' u c' => b' = b ∧ c'.Sound u (ids ++ [id]) := by
    split
    · exact .raise _
    · next hnew =>
      rw [Bool.not_eq_true] at hnew
      have hold := hc.mono hst (fun k hk => hvalid k (by simp [hk]))
        fun k hk => htied k (by simp [hk])
      rw [← ((hst.node id (hvalid id (by simp))).tied (htied id (by simp))).2]
      exact .pure ⟨rfl, hold.push hname hne hnew unnamed⟩
  refine .bind (Program.readNode_ensures id) ?_
  rintro b t n - - - ⟨rfl, rfl, rfl⟩
  by_cases hnamed : (t.node id).isNamed = true
  · simp only [hnamed, if_true]
    exact hpush b t _ _ (.refl b t) rfl (by simpa [Node.isNamed] using hnamed)
  · simp only [hnamed]
    have hunnamed : (t.node id).name = "" := by simpa [Node.isNamed] using hnamed
    refine .bind (P := fun b' u _ => b' = b ∧ (u.node id).name = freshName c.unnamed)
      (.step (fun _ => hunnamed) ⟨rfl, ?_⟩) ?_
    · simp [Access.perform, Store.node_modify, hvalid id (by simp)]
    · rintro b' u - - hgrows - ⟨rfl, hname⟩
      exact hpush b' u _ _ hgrows.toExtends hname (freshName_ne _)

theorem Collected.addAll_ensures {c : Collected} {before ids : List NodeId}
    (hc : c.Sound s before) (hvalid : ∀ k ∈ before ++ ids, k < s.nodes.size)
    (htied : ∀ k ∈ before ++ ids, (s.node k).pendingInput = none) (location : Location) :
    (c.addAll location ids).Ensures base s fun b t c' =>
      b = base ∧ c'.Sound t (before ++ ids) := by
  induction ids generalizing s c before with
  | nil =>
    rw [List.append_nil]
    exact .pure ⟨rfl, hc⟩
  | cons id ids ih =>
    rw [List.append_cons] at hvalid htied ⊢
    have hfirst (k) (hk : k ∈ before ++ [id]) : k ∈ before ++ [id] ++ ids :=
      List.mem_append_left ids hk
    refine .bind (Collected.add_ensures hc (fun k hk => hvalid k (hfirst k hk))
      (fun k hk => htied k (hfirst k hk)) location) ?_
    rintro b t c' - hst - ⟨rfl, hc'⟩
    refine ih hc' (fun k hk => Nat.lt_of_lt_of_le (hvalid k hk) hst.covers.nodes) fun k hk => ?_
    exact ((hst.node k (hvalid k hk)).tied (htied k hk)).1

/-- The nodes without inputs are the inputs of the network and its parameters. -/
theorem sources_ensures (location : Location) {nodes : List (String × NodeId)}
    (hvalid : ∀ p ∈ nodes, p.2 < s.nodes.size) :
    (sources location nodes).Ensures base s fun b t found =>
      b = base ∧ t = s ∧ found.inputs = namesOf s nodes .inputValue ∧
        found.parameters = namesOf s nodes .learnableParameter := by
  induction nodes with
  | nil => exact .pure ⟨rfl, rfl, rfl, rfl⟩
  | cons p nodes ih =>
    obtain ⟨name, id⟩ := p
    have hrest := ih fun p hp => hvalid p (List.mem_cons_of_mem _ hp)
    refine .bind (Program.readNode_ensures id) ?_
    rintro b t n hwf - - ⟨rfl, rfl, rfl⟩
    have harity := (hwf.node id (hvalid (name, id) List.mem_cons_self)).arity
    split
    · split
      · next hop =>
        refine .bind hrest ?_
        rintro b t found - - - ⟨rfl, rfl, hinputs, hparameters⟩
        exact .pure ⟨rfl, rfl, by simp [namesOf, hop, hinputs], by simp [namesOf, hop, hparameters]⟩
      · next hop =>
        refine .bind hrest ?_
        rintro b t found - - - ⟨rfl, rfl, hinputs, hparameters⟩
        exact .pure ⟨rfl, rfl, by simp [namesOf, hop, hinputs], by simp [namesOf, hop, hparameters]⟩
      · exact .raise _
    · next hinputs =>
      have hne : (t.node id).arity ≠ 0 := by
        rw [← harity]
        simpa using hinputs
      have hsource (op : Operation) (hop : op.inputCount? = none) (hdelay : op ≠ .delay) :
          (t.node id).operation ≠ op := by
        rintro heq
        apply hne
        cases op <;> simp_all [Node.arity, Operation.inputCount?]
      refine hrest.imp ?_
      rintro b u found - - - ⟨rfl, rfl, hinputs, hparameters⟩
      refine ⟨rfl, rfl, ?_, ?_⟩
      · simp [namesOf, hinputs, hsource .inputValue rfl (by simp)]
      · simp [namesOf, hparameters, hsource .learnableParameter rfl (by simp)]

/-- All members have their values in the end, and the roots are the nodes among them. -/
theorem roots_ensures {members : List Member} (hmembers : ∀ m ∈ members, m.cell < s.cells.size) :
    (roots members).Ensures base s fun _ t found =>
      (∀ r < s.records.size, t.record r = s.record r) ∧
      (∀ m ∈ members, (t.cell m.cell).isFinished = true) ∧
      found = members.filterMap (fun m => t.heldNode? m.cell) ∧
      ∀ id ∈ found, id < t.nodes.size := by
  have hcells : ∀ c ∈ members.map (·.cell), c < s.cells.size := by simpa using hmembers
  refine .bind (Program.forceAll_ensures hcells) ?_
  rintro b t values - - - ⟨hrecords, hvalues⟩
  rw [List.forall₂_map_left_iff] at hvalues
  refine .pure ⟨hrecords, ?_⟩
  change _ ∧ values.filterMap Value.node? = _ ∧ ∀ id ∈ values.filterMap Value.node?, _
  clear hmembers hcells
  induction hvalues with
  | nil => simp
  | @cons m v members values hv _ ih =>
    obtain ⟨hvalid, hfinished⟩ := hv
    obtain ⟨hall, hfound, hnodes⟩ := ih
    have hheld : t.heldNode? m.cell = v.node? := by simp [Store.heldNode?, hfinished]
    refine ⟨?_, ?_, ?_⟩
    · rw [List.forall_mem_cons]
      exact ⟨by simp [Cell.isFinished, hfinished], hall⟩
    · simp only [List.filterMap_cons, hfound, hheld]
    · intro id hid
      obtain ⟨w, hw, hid'⟩ := List.mem_filterMap.1 hid
      rcases List.mem_cons.1 hw with rfl | hw
      · exact Value.node?_valid hvalid hid'
      · exact hnodes id (List.mem_filterMap.2 ⟨w, hw, hid'⟩)

/-- Nodes lead to nodes only. -/
theorem eq_map_nodesOf {roots : List NodeId} {found : List Object}
    (hfound : s.Discovers (roots.map .node) [] found) : found = (nodesOf found).map .node := by
  have hnode : ∀ o ∈ found, ∃ id, o = .node id := by
    intro o ho
    induction (hfound.mem_iff_reaches o).1 ho with
    | root hroot =>
      obtain ⟨id, -, rfl⟩ := List.mem_map.1 hroot
      exact ⟨id, rfl⟩
    | child hreach hchild ih =>
      obtain ⟨id, rfl⟩ := ih ((hfound.mem_iff_reaches _).2 hreach)
      obtain ⟨input, -, rfl⟩ := List.mem_map.1 hchild
      exact ⟨input, rfl⟩
  clear hfound
  induction found with
  | nil => rfl
  | cons o found ih =>
    obtain ⟨id, rfl⟩ := hnode o List.mem_cons_self
    have hrest := ih fun o ho => hnode o (List.mem_cons_of_mem _ ho)
    rw [nodesOf, List.filterMap_cons, List.map_cons]
    exact congrArg _ hrest

/-- Nothing takes a node as an input iff none of the nodes does. -/
theorem not_contains_flatMap (inputs : NodeId → List NodeId) (id : NodeId)
    (nodes : List (String × NodeId)) :
    (!((nodes.map (·.2)).flatMap inputs).contains id) =
      nodes.all fun q => !(inputs q.2).contains id := by
  rw [Bool.eq_iff_iff]
  simp only [Bool.not_eq_true', ← Bool.not_eq_true, List.contains_iff_mem, List.mem_flatMap,
    List.mem_map, List.all_eq_true]
  constructor
  · exact fun h q hq hmem => h ⟨q.2, ⟨q, hq, rfl⟩, hmem⟩
  · rintro h ⟨_, ⟨q, hq, rfl⟩, hmem⟩
    exact h q hq hmem

/-- The nodes that can be reached from the members of a record, in the order in which they are
    found. -/
def walk (fields : RecordId) : Program (List NodeId) := do
  let r ← Program.readRecord fields
  let roots ← roots (r.members.toList.map (·.2))
  let visited ← Program.tie (roots.map .node) []
  return nodesOf visited

/-- The network of the nodes that were found. -/
def ofNodes (fields : RecordId) (location : Location) (ids : List NodeId) : Program Network := do
  let collected ← Collected.addAll {} location ids
  let nodes := collected.nodes.toList
  let sources ← sources location nodes
  let isOutput (n : String × NodeId) : Bool := !collected.inputs.contains n.2
  return {
    nodes
    inputs := sources.inputs
    parameters := sources.parameters
    outputs := (nodes.filter isOutput).map (·.1)
    fields
    location }

/-- The walk is over before the first node is named. -/
theorem ofFields_eq (fields : RecordId) (location : Location) :
    ofFields fields location = walk fields >>= ofNodes fields location := by
  simp only [ofFields, walk, ofNodes, bind_assoc, pure_bind]

/-- All that can be reached from the members of a record has been found. -/
structure Walked (s : Store) (fields : RecordId) (ids : List NodeId) : Prop where
  settled : ∀ p ∈ (s.record fields).members, (s.cell p.2.cell).isFinished = true
  order : s.Discovers ((s.memberNodes fields).map .node) [] (ids.map .node)
  valid : ∀ id ∈ ids, id < s.nodes.size
  tied : ∀ id ∈ ids, (s.node id).pendingInput = none

theorem walk_ensures {fields : RecordId} (hfields : fields < s.records.size) :
    (walk fields).Ensures base s fun b t ids => fields < b ∧ Walked t fields ids := by
  refine .bind (Program.readRecord_ensures fields) ?_
  rintro b s r hwf - - ⟨rfl, rfl, rfl⟩
  have hmembers : ∀ m ∈ (s.record fields).members.toList.map (·.2), m.cell < s.cells.size := by
    intro m hm
    obtain ⟨p, hp, rfl⟩ := List.mem_map.1 hm
    exact (hwf.record_valid fields).members p (Array.mem_toList_iff.1 hp)
  refine .bind (roots_ensures hmembers) ?_
  rintro b₁ t roots hwf hst - ⟨hrecords, hfinished, hroots, hvalid⟩
  have hwork : ∀ o ∈ roots.map Object.node ++ [], o.Valid t := by
    intro o ho
    rw [List.append_nil] at ho
    obtain ⟨id, hid, rfl⟩ := List.mem_map.1 ho
    exact hvalid id hid
  refine .bind (tie_ensures hwork) ?_
  rintro - u found - - - ⟨rfl, htu, hfound, htied⟩
  have htfields : fields < t.records.size := Nat.lt_of_lt_of_le hfields hst.covers.records
  have hsettled : ∀ p ∈ (t.record fields).members, (t.cell p.2.cell).isFinished = true := by
    intro p hp
    rw [hrecords fields hfields] at hp
    exact hfinished p.2 (List.mem_map_of_mem (Array.mem_toList_iff.2 hp))
  have hmemberNodes : u.memberNodes fields = roots := by
    rw [memberNodes_of_finished htu.toExtends htfields (hwf.record_valid fields) hsettled, hroots,
      Store.memberNodes, hrecords fields hfields, List.filterMap_map]
    rfl
  have hnodes := eq_map_nodesOf hfound
  have hmem (id) (hid : id ∈ nodesOf found) : Object.node id ∈ found := by
    rw [hnodes]
    exact List.mem_map_of_mem hid
  refine .pure ⟨Nat.lt_of_lt_of_le htfields htu.covers.records, ?_, ?_, ?_, ?_⟩
  · intro p hp
    rw [htu.record fields htfields] at hp
    have hin := (hwf.record_valid fields).members p hp
    exact isFinished_of_extends htu.toExtends hin (hsettled p hp)
  · rwa [hmemberNodes, ← hnodes]
  · exact fun id hid => (htied _ (hmem id hid)).1
  · exact fun id hid => (htied _ (hmem id hid)).2 id rfl (by simp)

/-- What was found stays found when names are given. -/
theorem Walked.mono {t : Store} {fields : RecordId} {ids : List NodeId} (hs : Walked s fields ids)
    (hst : s.Extends base t) (hfields : fields < base) (hvalid : (s.record fields).Valid s) :
    Walked t fields ids where
  settled p hp := by
    rw [hst.record fields hfields] at hp
    exact isFinished_of_extends hst (hvalid.members p hp) (hs.settled p hp)
  order := by
    rw [memberNodes_of_finished hst hfields hvalid hs.settled]
    refine hs.order.congr fun o ho _ => ?_
    obtain ⟨id, hid, rfl⟩ := List.mem_map.1 ho
    refine Store.children_of_extends hst (hs.valid id hid) ?_
    rintro _ ⟨⟩
    exact hs.tied id hid
  valid id hid := Nat.lt_of_lt_of_le (hs.valid id hid) hst.covers.nodes
  tied id hid := ((hst.node id (hs.valid id hid)).tied (hs.tied id hid)).1

/-- The network of the nodes that were found is sound. -/
theorem ofNodes_ensures {fields : RecordId} {ids : List NodeId} (hfields : fields < base)
    (hids : Walked s fields ids) (location : Location) :
    (ofNodes fields location ids).Ensures base s fun b t n => n.fields < b ∧ n.Sound t := by
  refine .of_wellFormed fun hwf => ?_
  have hstart : Collected.Sound s {} [] := ⟨rfl, by simp, by simp, rfl⟩
  refine .bind (Collected.addAll_ensures hstart hids.valid hids.tied location) ?_
  rintro b t c - hst - ⟨rfl, hc⟩
  replace hc : Collected.Sound t c ids := hc
  replace hids := hids.mono hst.toExtends hfields (hwf.record_valid fields)
  have hmem (p) (hp : p ∈ c.nodes.toList) : p.2 ∈ ids := by
    rw [← hc.order]
    exact List.mem_map_of_mem hp
  refine .bind (sources_ensures location fun p hp => hids.valid _ (hmem p hp)) ?_
  rintro b t sources - - - ⟨rfl, rfl, hinputs, hparameters⟩
  refine .pure ⟨hfields, {
    valid := fun p hp => hids.valid _ (hmem p hp)
    settled := hids.settled
    order := ?_
    named := hc.named
    distinct := hc.distinct
    tied := fun p hp => hids.tied _ (hmem p hp)
    inputs := hinputs
    parameters := hparameters
    outputs := ?_ }⟩
  · have hobjects : c.nodes.toList.map (fun p => Object.node p.2) = ids.map .node := by
      rw [← hc.order, List.map_map]
      rfl
    rw [Network.objects, hobjects]
    exact hids.order
  · refine congrArg _ (List.filter_congr fun p _ => ?_)
    rw [hc.inputs, ← hc.order]
    exact not_contains_flatMap _ p.2 c.nodes.toList

/-- The network of a record is sound. -/
theorem ofFields_ensures {fields : RecordId} (hfields : fields < s.records.size)
    (location : Location) :
    (ofFields fields location).Ensures base s fun b t n => n.fields < b ∧ n.Sound t := by
  rw [ofFields_eq]
  refine .bind (walk_ensures hfields) ?_
  exact fun b t ids _ _ _ hids => ofNodes_ensures hids.1 hids.2 location

theorem runtimeType_sound : runtimeType.Sound := by
  intro fields location path base s hfields
  refine .bind (ofFields_ensures hfields location) ?_
  rintro b t n - - - ⟨hsealed, hsound⟩
  refine .bind (P := fun _ t id => id < t.networks.size)
    (.step (fun _ => ⟨hsealed, hsound⟩) (by simp [Access.perform])) ?_
  exact fun b u id _ _ _ hid => .pure ⟨hid, by rintro _ ⟨⟩⟩

end Network

/-- All standard runtime types make good values. -/
theorem Registry.standard_sound : Registry.standard.Sound := by
  intro p hp
  simp only [standard, List.mem_cons, List.not_mem_nil, or_false] at hp
  rcases hp with rfl | rfl | rfl | rfl | rfl | rfl | rfl
  · exact Node.runtimeType_sound
  · exact Network.runtimeType_sound
  · exact Network.runtimeType_sound
  · exact TextFunction.runtimeType_sound
  · exact NumericFunction.runtimeType_sound
  · exact PrintAction.runtimeType_sound
  · exact FailAction.runtimeType_sound

end NetDesc
