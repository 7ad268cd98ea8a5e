import NetDesc.Proofs.Naming.Standard

namespace NetDesc

variable {begun : List Computation} {carryOut : (c : Call) → Store → Outcome c.Reply}
  {inside : Call → Store → List Computation} {w : World} {tier : Tier}

/-- The children of an object can be seen from where the object can. -/
theorem World.Sound.children_fits (hw : w.Sound begun) {o : Object} (ho : o.Fits w tier) :
    ∀ c ∈ w.store.children o, c.Fits w tier := by
  cases o with
  | node id =>
    obtain ⟨⟨k, hk, hle⟩, -⟩ := ho
    intro c hc
    obtain ⟨input, hinput, rfl⟩ := List.mem_map.1 hc
    exact ((hw.node id k hk).2.2.inputs input hinput).above hle
  | network id =>
    obtain ⟨k, hk, hle⟩ := ho
    intro c hc
    obtain ⟨p, hp, rfl⟩ := List.mem_map.1 hc
    exact ((hw.network id k hk).2.2.nodes p hp).above hle
  | action id => simp [Store.children]

namespace Network

theorem tieStep_upholds (hcalls : CallsUphold begun carryOut inside) {work visited : List Object}
    (hfits : ∀ o ∈ work ++ visited, o.Fits w tier) (hnodup : visited.Nodup) :
    (tieStep work visited).Upholds begun carryOut inside w tier ∅ fun u found =>
      (∀ o ∈ found, o.Fits u tier) ∧ found.Nodup := by
  have hvisit {u : World} {o : Object} {work visited : List Object}
      (hfits : ∀ p ∈ o :: work ++ visited, p.Fits u tier) (hnodup : (visited ++ [o]).Nodup) :
      Program.Upholds begun carryOut inside (do
        let children ← Program.children o
        Program.tie (work ++ children.filter (!(visited ++ [o]).contains ·)) (visited ++ [o])) u
        tier ∅ fun u found => (∀ o ∈ found, o.Fits u tier) ∧ found.Nodup := by
    have hchildren : (Program.children o).Upholds begun carryOut inside u tier ∅
        fun v children => v = u ∧ ∀ c ∈ children, c.Fits u tier :=
      .of_sound fun hu _ => .look rfl ⟨rfl, hu.children_fits (hfits o List.mem_cons_self)⟩
    refine .bind_still hchildren ?_
    rintro v children - - ⟨rfl, hchildren⟩
    refine Program.tie_upholds hcalls (fun p hp => ?_) hnodup
    simp only [List.mem_append, List.mem_filter, List.mem_singleton] at hp
    rcases hp with (hp | ⟨hp, -⟩) | (hp | rfl)
    · exact hfits p (by simp [hp])
    · exact hchildren p hp
    · exact hfits p (by simp [hp])
    · exact hfits p (by simp)
  cases work with
  | nil => exact .pure ⟨by simpa using hfits, hnodup⟩
  | cons o work =>
    unfold tieStep
    dsimp only
    split
    · exact Program.tie_upholds hcalls (fun p hp => hfits p (List.mem_cons_of_mem o hp)) hnodup
    · next hnew =>
      have hnodup' : (visited ++ [o]).Nodup := by
        rw [List.nodup_append]
        refine ⟨hnodup, by simp, ?_⟩
        rintro a ha b hb rfl
        exact hnew (List.contains_iff_mem.2 (List.mem_singleton.1 hb ▸ ha))
      split
      · next id =>
        have hid : w.SeesNode tier id := hfits (.node id) List.mem_cons_self
        refine .bind_still (Node.finalize_upholds hcalls hid) fun u _ _ hlater _ => ?_
        exact hvisit (fun p hp => (hfits p hp).seen hlater.toExtends.kept)
          hnodup'
      · exact hvisit hfits hnodup'

/-- What has been collected goes by its own name. -/
def Collected.Fits (w : World) (tier : Tier) (c : Collected) : Prop :=
  ∀ p ∈ c.nodes.toList, w.SeesNode tier p.2 ∧ (w.store.node p.2).name = p.1

/-- Nodes that can be seen from one place are all collected, and nothing is renamed, for such
    nodes have names that differ. -/
theorem Collected.addAll_run (hw : w.Sound begun) (htier : w.Live tier) {c : Collected}
    (hc : c.Fits w tier) {ids : List NodeId} (hids : ∀ id ∈ ids, w.SeesNode tier id)
    (hnodup : (c.nodes.toList.map (·.2) ++ ids).Nodup) (location : Location) :
    ∃ c' : Collected, c'.Fits w tier ∧
      (c.addAll location ids).run carryOut w.store = .value c' w.store := by
  induction ids generalizing c with
  | nil => exact ⟨c, hc, rfl⟩
  | cons id ids ih =>
    rw [List.forall_mem_cons] at hids
    let n := w.store.node id
    have hnamed : n.isNamed = true := by simpa [Node.isNamed, n] using hids.1.2
    have hnew : c.nodes.any (·.1 == n.name) = false := by
      rw [Array.any_eq_false']
      intro p hp hsame
      obtain ⟨hp', hname⟩ := hc p (Array.mem_toList_iff.2 hp)
      have hne : p.2 ≠ id := by
        rintro rfl
        have hmem := List.mem_map_of_mem (f := (·.2)) (Array.mem_toList_iff.2 hp)
        exact (List.nodup_append.1 hnodup).2.2 _ hmem _ List.mem_cons_self rfl
      exact hw.seen_differ htier hp' hids.1 hne (hname.trans (by simpa using hsame))
    let c' : Collected := ⟨c.nodes.push (n.name, id), c.unnamed, c.inputs ++ n.inputs⟩
    have hc' : c'.Fits w tier := by
      intro p hp
      rw [Array.toList_push] at hp
      rcases List.mem_append.1 hp with hp | hp
      · exact hc p hp
      · rw [List.mem_singleton.1 hp]
        exact ⟨hids.1, rfl⟩
    have hnodup' : (c'.nodes.toList.map (·.2) ++ ids).Nodup := by
      simpa [c'] using hnodup
    have hadd : (c.add id location).run carryOut w.store = .value c' w.store := by
      rw [Collected.add, Program.run_readNode_bind]
      simp only [hnamed, if_true, hnew, n]
      rfl
    obtain ⟨final, hfinal, hrun⟩ := ih hc' hids.2 hnodup'
    refine ⟨final, hfinal, ?_⟩
    rw [Collected.addAll, Program.run_bind, hadd]
    exact hrun

/-- Nothing is computed while nodes are collected. -/
theorem Collected.addAll_calls (c : Collected) (location : Location) (ids : List NodeId) :
    (c.addAll location ids).Calls fun _ => False := by
  have hadd (c : Collected) (id : NodeId) : (c.add id location).Calls fun _ => False := by
    refine .bind (fun _ => trivial) fun n => ?_
    cases n.isNamed
    · intro _
      dsimp only
      split <;> trivial
    · simp only [if_true]
      split <;> trivial
  induction ids generalizing c with
  | nil => trivial
  | cons id ids ih => exact .bind (hadd c id) ih

/-- Different nodes that can be seen from one place can be collected from nothing. -/
theorem addAll_run_empty (carryOut : (c : Call) → Store → Outcome c.Reply) (hw : w.Sound begun)
    (htier : w.Live tier) {ids : List NodeId} (hids : ∀ id ∈ ids, w.SeesNode tier id)
    (hnodup : ids.Nodup) (location : Location) :
    ∃ c : Collected, c.Fits w tier ∧
      (Collected.addAll {} location ids).run carryOut w.store = .value c w.store :=
  Collected.addAll_run hw htier (by simp [Collected.Fits]) hids (by simpa using hnodup) location

theorem sources_upholds (location : Location) (nodes : List (String × NodeId)) :
    (sources location nodes).Upholds begun carryOut inside w tier ∅ fun _ _ => True := by
  induction nodes generalizing w with
  | nil => exact .pure trivial
  | cons p nodes ih =>
    have hrest {w : World} {f : Sources → Sources} :
        Program.Upholds begun carryOut inside (do return f (← sources location nodes)) w tier ∅
          fun _ _ => True :=
      .bind_still ih fun _ _ _ _ _ => .pure trivial
    refine .bind_still (Program.readNode_upholds p.2) fun u n _ _ _ => ?_
    split
    · split
      · exact hrest
      · exact hrest
      · exact .raise _
    · exact ih

section Networks

variable (hcalls : CallsUphold begun carryOut inside) {fields : RecordId}
  (hfields : Tier.Reaches (w.record fields) tier)

include hcalls hfields

/-- Everything that the walk through a graph finds can be seen from where the walk starts, and it
    finds nothing twice. -/
theorem walk_upholds :
    (walk fields).Upholds begun carryOut inside w tier ∅ fun u ids =>
      (∀ id ∈ ids, u.SeesNode tier id) ∧ ids.Nodup := by
  refine .bind_still (Program.readRecord_upholds fields) ?_
  rintro u r hu - ⟨rfl, rfl⟩
  have hcells : ∀ c ∈ ((u.store.record fields).members.toList.map (·.2)).map (·.cell),
      Tier.Reaches (u.cell c) tier := by
    intro c hc
    obtain ⟨m, hm, rfl⟩ := List.mem_map.1 hc
    obtain ⟨p, hp, rfl⟩ := List.mem_map.1 hm
    exact hu.members hfields p (Array.mem_toList_iff.1 hp)
  have hroots : (roots ((u.store.record fields).members.toList.map (·.2))).Upholds begun carryOut
      inside u tier ∅ fun v ids => ∀ id ∈ ids, v.SeesNode tier id := by
    refine .bind_still (Program.forceAll_upholds hcalls hcells) fun v values _ _ hvalues => ?_
    refine .pure fun id hid => ?_
    obtain ⟨⟨payload, location, path⟩, hx, hnode⟩ := List.mem_filterMap.1 hid
    rcases payload with _ | _ | _ | _ | _ | _ | (_ | _ | _) <;> cases hnode
    exact hvalues _ hx
  refine .bind_still hroots fun v ids _ _ hids => ?_
  have hwork : ∀ o ∈ ids.map Object.node ++ [], o.Fits v tier := by
    intro o ho
    rw [List.append_nil] at ho
    obtain ⟨id, hid, rfl⟩ := List.mem_map.1 ho
    exact hids id hid
  refine .bind_still (Program.tie_upholds hcalls hwork List.nodup_nil) ?_
  intro x found _ _ hfound
  refine .pure ⟨fun id hid => ?_, List.Pairwise.filterMap _ ?_ hfound.2⟩
  · obtain ⟨o, ho, hid⟩ := List.mem_filterMap.1 hid
    cases o <;> cases hid
    exact hfound.1 _ ho
  · rintro o o' hne id ho _ ho' rfl
    cases o <;> cases ho
    cases o' <;> cases ho'
    exact hne rfl

omit hcalls in
theorem ofNodes_upholds {ids : List NodeId} (hids : ∀ id ∈ ids, w.SeesNode tier id)
    (hnodup : ids.Nodup) (location : Location) :
    (ofNodes fields location ids).Upholds begun carryOut inside w tier ∅ fun u n =>
      n.Fits u tier := by
  refine .of_sound fun hw hcurrent => ?_
  obtain ⟨c, hc, hrun⟩ := addAll_run_empty carryOut hw hcurrent.live hids hnodup location
  have hcollected : (Collected.addAll {} location ids).Upholds begun carryOut inside w tier ∅
      fun u c' => u = w ∧ c' = c :=
    .of_run hrun (Collected.addAll_calls _ _ _) ⟨rfl, rfl⟩
  refine .bind_still hcollected ?_
  rintro _ _ - - ⟨rfl, rfl⟩
  refine .bind_still (sources_upholds location _) fun u s _ hlater _ => .pure ⟨?_, ?_⟩
  · exact fun p hp => hlater.seesNode (hc p hp).1
  · exact hlater.reaches_record hfields

omit hcalls hfields in
theorem ofNodes_careful {ids : List NodeId} (hids : ∀ id ∈ ids, w.SeesNode tier id)
    (hnodup : ids.Nodup) (location : Location) :
    (ofNodes fields location ids).Careful begun carryOut inside w tier := by
  intro hw hcurrent
  obtain ⟨c, hc, hrun⟩ := addAll_run_empty carryOut hw hcurrent.live hids hnodup location
  have hcollected : (Collected.addAll {} location ids).Upholds begun carryOut inside w tier ∅
      fun _ _ => True :=
    .of_run hrun (Collected.addAll_calls _ _ _) trivial
  refine Program.Careful.bind (.of_run hrun) hcollected (fun u c' _ _ _ => ?_) hw hcurrent
  refine .of_raises (.bind ?_ fun _ => trivial)
  refine (sources_raises location _).imp fun _ hcause other => ?_
  obtain ⟨name, op, rfl⟩ := hcause
  exact Cause.sourceless_ne_ambiguous name op other

theorem construct_upholds (location : Location) (path : String) :
    (construct fields location path).Upholds begun carryOut inside w tier ∅ fun u v =>
      v.Fits u tier ∧ ∀ id, v.payload ≠ .object (.node id) := by
  rw [construct, ofFields_eq, bind_assoc]
  refine .bind_still (walk_upholds hcalls hfields) fun u ids _ hlater hids => ?_
  refine .bind_still (ofNodes_upholds (hlater.reaches_record hfields) hids.1 hids.2 location) ?_
  intro v n _ _ hn
  exact .bind_still (Program.newNetwork_upholds hn) fun x id _ _ hid => .pure ⟨hid, by rintro _ ⟨⟩⟩

theorem construct_careful (location : Location) (path : String) :
    (construct fields location path).Careful begun carryOut inside w tier := by
  rw [construct, ofFields_eq, bind_assoc]
  refine .bind (.of_ordinary (walk_raises fields)) (walk_upholds hcalls hfields) ?_
  intro u ids _ hlater hids
  refine .bind (ofNodes_careful hids.1 hids.2 location)
    (ofNodes_upholds (hlater.reaches_record hfields) hids.1 hids.2 location) fun v n _ _ _ => ?_
  exact .of_raises fun _ => trivial

theorem instantiate_upholds (location : Location) (path : String) :
    (Registry.instantiate runtimeType fields location path).Upholds begun carryOut inside w tier ∅
      fun u v => v.Fits u tier := by
  have hconstruct : (runtimeType.construct fields location path).Upholds begun carryOut inside w
      tier ∅ fun u v => v.Fits u tier ∧ True ∧ ∀ id, v.payload ≠ .object (.node id) :=
    (construct_upholds hcalls hfields location path).imp subset_rfl
      fun _ _ _ _ hv => ⟨hv.1, trivial, hv.2⟩
  exact (Registry.instantiate_upholds hconstruct).imp subset_rfl fun _ _ _ _ hv => hv.1

theorem instantiate_careful (location : Location) (path : String) :
    (Registry.instantiate runtimeType fields location path).Careful begun carryOut inside w
      tier := by
  refine .bind (construct_careful hcalls hfields location path)
    (construct_upholds hcalls hfields location path) fun u v _ _ _ => .of_ordinary ?_
  split
  · exact fun _ => trivial
  · trivial

end Networks

end Network

namespace Registry

/-- The types that are scopes are those of networks. -/
theorem standard_isRecordLike {name : String} {place : Location} {t : RuntimeType}
    (ht : standard.runtimeType name place = .ok t) :
    t.isRecordLike = (name == "ComputationNetwork" || name == "NDLComputationNetwork") ∧
      (t.isRecordLike = true → t = Network.runtimeType) := by
  have hmem := runtimeType_mem ht
  simp only [standard, List.mem_cons, Prod.mk.injEq, List.not_mem_nil, or_false] at hmem
  rcases hmem with ⟨rfl, rfl⟩ | ⟨rfl, rfl⟩ | ⟨rfl, rfl⟩ | ⟨rfl, rfl⟩ | ⟨rfl, rfl⟩ | ⟨rfl, rfl⟩ |
    ⟨rfl, rfl⟩
  all_goals exact ⟨rfl, fun h => by first | rfl | cases h⟩

theorem standard_construct_raises {name : String} {place : Location} {t : RuntimeType}
    (ht : standard.runtimeType name place = .ok t) (hplain : t.isRecordLike = false)
    (fields : RecordId) (location : Location) (path : String) :
    (t.construct fields location path).Raises Cause.Ordinary := by
  have hmem := runtimeType_mem ht
  simp only [standard, List.mem_cons, Prod.mk.injEq, List.not_mem_nil, or_false] at hmem
  rcases hmem with ⟨-, rfl⟩ | ⟨-, rfl⟩ | ⟨-, rfl⟩ | ⟨-, rfl⟩ | ⟨-, rfl⟩ | ⟨-, rfl⟩ | ⟨-, rfl⟩
  · exact Node.construct_raises fields location path
  · cases hplain
  · cases hplain
  · exact TextFunction.construct_raises fields location path
  · exact NumericFunction.construct_raises fields location path
  · exact PrintAction.construct_raises fields location path
  · exact FailAction.construct_raises fields location path

variable (hcalls : CallsUphold begun carryOut inside) {name : String} {place : Location}
  {t : RuntimeType} (ht : standard.runtimeType name place = .ok t) {fields : RecordId}
  (hfields : Tier.Reaches (w.record fields) tier) (location : Location)

include hcalls ht hfields

/-- Types that are no scopes make a node of this name at most. -/
theorem standard_instantiate_upholds (hplain : t.isRecordLike = false) {path : String}
    (hfree : World.Free begun w tier path) :
    (instantiate t fields location path).Upholds begun carryOut inside w tier {path} fun u v =>
      (v.Fits u tier ∨ path = "") ∧ ¬v.HasMembers := by
  have hvalue {t : RuntimeType}
      (ht : (t.construct fields location path).Upholds begun carryOut inside w tier ∅ fun u v =>
        v.Fits u tier ∧ ¬v.HasMembers ∧ ∀ id, v.payload ≠ .object (.node id)) :
      (instantiate t fields location path).Upholds begun carryOut inside w tier {path} fun u v =>
        (v.Fits u tier ∨ path = "") ∧ ¬v.HasMembers :=
    (instantiate_upholds ht).imp (Set.empty_subset _) fun _ _ _ _ hv => ⟨.inl hv.1, hv.2⟩
  have hmem := runtimeType_mem ht
  simp only [standard, List.mem_cons, Prod.mk.injEq, List.not_mem_nil, or_false] at hmem
  rcases hmem with ⟨-, rfl⟩ | ⟨-, rfl⟩ | ⟨-, rfl⟩ | ⟨-, rfl⟩ | ⟨-, rfl⟩ | ⟨-, rfl⟩ | ⟨-, rfl⟩
  · exact Node.instantiate_upholds hcalls hfields location hfree
  · cases hplain
  · cases hplain
  · exact hvalue (TextFunction.construct_upholds hcalls hfields location path)
  · exact hvalue (NumericFunction.construct_upholds hcalls hfields location path)
  · exact hvalue (PrintAction.construct_upholds hcalls hfields location path)
  · exact hvalue (FailAction.construct_upholds hcalls hfields location path)

end Registry

end NetDesc
