import NetDesc.Proofs.Recurrence.Tying

namespace NetDesc

theorem Record.find?_of_mem {r : Record} (hnodup : r.names.Nodup) {name : String} {m : Member}
    (h : (name, m) ∈ r.members.toList) : r.find? name = some m := by
  have hname : name ∈ r.names := List.mem_map_of_mem h
  obtain ⟨m', hm'⟩ := contains_iff.1 (contains_iff_mem_names.2 hname)
  have heq := List.inj_on_of_nodup_map hnodup h (Array.mem_toList_iff.2 (mem_of_find? hm')) rfl
  rw [hm', (Prod.mk.inj heq).2]

/-- Every operation that takes inputs takes at least one. -/
theorem Operation.inputCount?_ne_zero (op : Operation) : op.inputCount? ≠ some 0 := by
  cases op <;> decide

namespace Design

variable {d : Design} {r : RecordId} {active : List String} {ids : List NodeId} {s t : Store}

theorem Blocked.cyclic {a : String} (h : d.Blocked [] a) : d.Cyclic := by
  rcases h with h | ⟨b, hb, -⟩
  · exact h
  · cases hb

/-- When all members have been computed, they do not require one another in a circle: nodes are
    numbered in the order in which they are made, and a node is made after those it requires. -/
theorem Underway.not_cyclic (h : d.Underway r active s)
    (hall : ∀ a ∈ d.names, ∃ k, s.MemberIs r a k) : ¬d.Cyclic := by
  -- The rank of a member is the number of its node.
  refine not_cyclic_of_rank (fun a => Classical.epsilon fun k => s.MemberIs r a k) ?_
  rintro a b ⟨n, ha, hb⟩
  obtain ⟨k, m, v, hm, hlt, hv, hpayload⟩ := hall a (List.mem_map_of_mem ha)
  obtain ⟨k', hk', hmade⟩ := h.made a n ha m v hm hv
  obtain ⟨i, hik, hi⟩ := hmade.before b hb
  have hmember : s.MemberIs r a k' := ⟨m, v, hm, hlt, hv, hk'⟩
  have hrank : Classical.epsilon (fun k => s.MemberIs r a k) = k' :=
    (Classical.epsilon_spec ⟨k', hmember⟩).unique hmember
  have hrank' : Classical.epsilon (fun k => s.MemberIs r b k) = i :=
    (Classical.epsilon_spec ⟨i, hi⟩).unique hi
  rwa [hrank, hrank']

/-- Members that have all been computed are nodes, apart from inputs of delays. -/
theorem Underway.complete (h : d.Underway r active s)
    (hids : List.Forall₂ (fun p k => s.MemberIs r p.1 k) d.nodes ids) : d.Complete r ids s where
  member := hids
  node a n k ha hk := by
    obtain ⟨m, v, hm, hlt, hv, hpayload⟩ := hk
    obtain ⟨k', hk', hmade⟩ := h.made a n ha m v hm hv
    rw [hpayload] at hk'
    cases hk'
    exact ⟨hmade.inside, hmade.node⟩

/-- A node with all its inputs has some, or is an input of the network. -/
theorem inputs_ne_nil_of_wired {a : String} {n : NodeDesign} {x : Node} (hn : n.Proper)
    (h : s.Wired r a n x) : x.inputs ≠ [] ∨ x.operation = .inputValue := by
  obtain ⟨inputs, rfl, hinputs⟩ := h
  have hlength := hinputs.length_eq
  cases n with
  | input => exact .inr rfl
  | apply op names =>
    refine .inl fun hnil => op.inputCount?_ne_zero ?_
    change inputs = [] at hnil
    rw [hn.1, show names.length = 0 by simpa [hnil, NodeDesign.inputs] using hlength]
  | delay input deltaT =>
    refine .inl fun hnil => ?_
    change inputs = [] at hnil
    simp [hnil, NodeDesign.inputs] at hlength

end Design

namespace Network

variable {ev : Evaluator} {depth : Nat} {d : Design} {r : RecordId} {E : Prop} {s : Store}
  {ids : List NodeId}

/-- Forcing all members gives all nodes, in the order of the members. -/
theorem forceAll_members_ends (hev : ev.registry = .standard) (hexact : d.Exact)
    (hdepth : depth + 3 * d.nodes.length ≤ ev.maxDepth) {members : List (String × Member)}
    (hmembers : ∀ p ∈ members, p.1 ∈ d.names ∧ (s.record r).find? p.1 = some p.2)
    (hs : d.Underway r [] s) :
    (Program.forceAll (members.map (·.2.cell))).Ends ev depth s (fun t values =>
      s.Later (Task.In r) t ∧ d.Underway r [] t ∧ ∃ ids,
        List.Forall₂ (fun v k => v.payload = .object (.node k)) values ids ∧
        List.Forall₂ (t.MemberIs r) (members.map (·.1)) ids) d.Cyclic := by
  induction members generalizing s with
  | nil => exact .pure ⟨.refl _ s, hs, [], .nil, .nil⟩
  | cons p members ih =>
    rw [List.forall_mem_cons] at hmembers
    obtain ⟨⟨ha, hm⟩, hmembers⟩ := hmembers
    rw [List.map_cons, Program.forceAll, List.mapM_cons]
    refine .bind ((Evaluator.force_member_ends hev hexact List.nodup_nil (List.nil_subset _)
      (by simp) hdepth hs ha hm).imp (fun _ _ h => h) Design.Blocked.cyclic) ?_
    intro t v hforced
    have hrest : ∀ q ∈ members, q.1 ∈ d.names ∧ (t.record r).find? q.1 = some q.2 := by
      rw [hforced.later.record r hs.inside]
      exact hmembers
    refine .bind (ih hrest hforced.underway) ?_
    rintro u values ⟨htu, hu, ids, hids, hall⟩
    obtain ⟨k, hk, hmember⟩ := hforced.node
    exact .pure ⟨hforced.later.trans htu, hu, k :: ids, .cons hk hids,
      .cons (hmember.later htu hforced.underway.inside) hall⟩

/-- The roots of a network of nodes are all of them. -/
theorem roots_ends (hev : ev.registry = .standard) (hexact : d.Exact)
    (hdepth : depth + 3 * d.nodes.length ≤ ev.maxDepth) (hnames : (s.record r).names = d.names)
    (hs : d.Underway r [] s) :
    (roots ((s.record r).members.toList.map (·.2))).Ends ev depth s
      (fun t ids => ¬d.Cyclic ∧ d.Complete r ids t) d.Cyclic := by
  have hmembers : ∀ p ∈ (s.record r).members.toList,
      p.1 ∈ d.names ∧ (s.record r).find? p.1 = some p.2 := by
    have hnodup : (s.record r).names.Nodup := hnames ▸ d.distinct
    intro p hp
    exact ⟨hnames ▸ List.mem_map_of_mem hp, Record.find?_of_mem hnodup hp⟩
  have hforced := forceAll_members_ends hev hexact hdepth hmembers hs
  rw [roots, List.map_map]
  refine .bind hforced ?_
  rintro t values ⟨-, ht, ids, hids, hall⟩
  have hroots : values.filterMap Value.node? = ids := by
    clear hall
    induction hids with
    | nil => rfl
    | cons hk _ ih => rw [List.filterMap_cons, Value.node?, hk, ih]
  have hcomplete : List.Forall₂ (fun p k => t.MemberIs r p.1 k) d.nodes ids := by
    have hsame : (s.record r).members.toList.map (·.1) = d.nodes.map (·.1) := hnames
    rwa [hsame, List.forall₂_map_left_iff] at hall
  have hcomputed : ∀ a ∈ d.names, ∃ k, t.MemberIs r a k := by
    intro a ha
    obtain ⟨p, hp, rfl⟩ := List.mem_map.1 ha
    obtain ⟨k, -, hk⟩ := exists_right_of_forall₂ hcomplete hp
    exact ⟨k, hk⟩
  refine .pure ⟨ht.not_cyclic hcomputed, ?_⟩
  change d.Complete r (values.filterMap Value.node?) t
  rw [hroots]
  exact ht.complete hcomplete

/-- Named nodes with different names are collected under their names. -/
theorem addAll_ends {c : Collected} (location : Location)
    (hnamed : ∀ k ∈ ids, (s.node k).name ≠ "")
    (hdistinct : (c.nodes.toList.map (·.1) ++ ids.map fun k => (s.node k).name).Nodup) :
    (c.addAll location ids).Ends ev depth s (fun t found => t = s ∧
      found.nodes.toList = c.nodes.toList ++ ids.map fun k => ((s.node k).name, k)) E := by
  induction ids generalizing c with
  | nil => exact .pure ⟨rfl, by simp⟩
  | cons k ids ih =>
    rw [List.forall_mem_cons] at hnamed
    have hisNamed : (s.node k).isNamed = true := by simpa [Node.isNamed] using hnamed.1
    have hnew : c.nodes.any (·.1 == (s.node k).name) = false := by
      rw [List.nodup_append] at hdistinct
      rw [← Array.any_toList, List.any_eq_false]
      intro p hp heq
      exact hdistinct.2.2 p.1 (List.mem_map_of_mem hp) _ List.mem_cons_self (by simpa using heq)
    have hadd : (c.add k location).Ends ev depth s (fun t found => t = s ∧
        found.nodes = c.nodes.push ((s.node k).name, k)) E := by
      refine .readNode ?_
      simp only [hisNamed, if_true, hnew]
      exact .pure ⟨rfl, rfl⟩
    refine .bind hadd ?_
    rintro _ c' ⟨rfl, hc'⟩
    refine (ih hnamed.2 ?_).imp ?_ id
    · simpa [hc'] using hdistinct
    · rintro _ found ⟨rfl, hfound⟩
      exact ⟨rfl, by simp [hfound, hc']⟩

/-- Nodes with inputs need not be sorted, and inputs of the network can be. -/
theorem sources_ends (location : Location) {nodes : List (String × NodeId)}
    (h : ∀ p ∈ nodes, (s.node p.2).inputs ≠ [] ∨ (s.node p.2).operation = .inputValue) :
    (sources location nodes).Ends ev depth s (fun t _ => t = s) E := by
  induction nodes with
  | nil => exact .pure rfl
  | cons p nodes ih =>
    obtain ⟨name, k⟩ := p
    rw [List.forall_mem_cons] at h
    refine .readNode ?_
    rcases h.1 with hinputs | hop
    · rw [if_neg (by simpa using hinputs)]
      exact ih h.2
    · rw [hop]
      split
      · refine .bind (ih h.2) ?_
        rintro _ found rfl
        exact .pure rfl
      · exact ih h.2

/-- A network of nodes has all of them, under their names. -/
theorem ofFields_ends (hev : ev.registry = .standard) (hexact : d.Exact)
    (hdepth : depth + 3 * d.nodes.length < ev.maxDepth) (hnames : (s.record r).names = d.names)
    (hs : d.Underway r [] s) (location : Location) :
    (ofFields r location).Ends ev depth s (fun t net => ¬d.Cyclic ∧ ∃ ids, d.Complete r ids t ∧
      d.TiedAll r ids t ∧ net.nodes = ids.map fun k => ((t.node k).name, k)) d.Cyclic := by
  refine .readRecord ?_
  refine .bind (roots_ends hev hexact (Nat.le_of_lt hdepth) hnames hs) ?_
  rintro t ids ⟨hacyclic, ht⟩
  have hnone : d.TiedAll r [] t := fun _ _ _ _ _ hmem => absurd hmem List.not_mem_nil
  have htie : (Program.tie (ids.map .node) []).Ends ev depth t (fun u found =>
      found = ids.map .node ∧ d.Complete r ids u ∧ d.TiedAll r ids u) d.Cyclic := by
    have hall := tie_ends (E := d.Cyclic) ht hnone (List.nil_append ids) (List.forall_mem_nil _)
      (Nat.lt_of_le_of_lt (Nat.le_add_right _ _) hdepth)
    rwa [List.append_nil] at hall
  refine .bind htie ?_
  rintro u _ ⟨rfl, hu, htied⟩
  have hnodes : nodesOf (ids.map .node) = ids := by
    rw [nodesOf, List.filterMap_map]
    exact List.filterMap_some
  rw [hnodes]
  have hnamed : ∀ k ∈ ids, (u.node k).name ≠ "" := by
    intro k hk hname
    have hmem : (u.node k).name ∈ d.names := hu.names_eq ▸ List.mem_map_of_mem hk
    obtain ⟨p, hp, hpname⟩ := List.mem_map.1 hmem
    exact (d.named p hp).1 (hpname.trans hname)
  have hdistinct : (ids.map fun k => (u.node k).name).Nodup := hu.names_eq ▸ d.distinct
  refine .bind (addAll_ends location hnamed (by simpa using hdistinct)) ?_
  rintro v collected ⟨hv, hcollected⟩
  rw [hv]
  replace hcollected : collected.nodes.toList = ids.map fun k => ((u.node k).name, k) := by
    simpa using hcollected
  have hsorted : ∀ p ∈ collected.nodes.toList,
      (u.node p.2).inputs ≠ [] ∨ (u.node p.2).operation = .inputValue := by
    rw [hcollected]
    intro p hp
    obtain ⟨k, hk, rfl⟩ := List.mem_map.1 hp
    obtain ⟨a, n, ha, hmember⟩ := hu.exists_member hk
    exact Design.inputs_ne_nil_of_wired (d.proper _ ha) (htied a n k ha hmember hk)
  refine .bind (sources_ends location hsorted) ?_
  rintro w sources hw
  rw [hw]
  exact .pure ⟨hacyclic, ids, hu, htied, hcollected⟩

end Network

end NetDesc
