import NetDesc.Proofs.Naming.Program
import NetDesc.Proofs.Scoping.Nesting

namespace NetDesc

variable {begun : List Computation} {carryOut : (c : Call) → Store → Outcome c.Reply}
  {inside : Call → Store → List Computation} {w : World} {tier : Tier}

namespace World.Sound

variable (hw : w.Sound begun) {r : RecordId} (hr : Tier.Reaches (w.record r) tier)

include hw hr

theorem members : ∀ p ∈ (w.store.record r).members, Tier.Reaches (w.cell p.2.cell) tier := by
  obtain ⟨k, hk, hle⟩ := hr
  exact fun p hp => ((hw.record r k hk).2.2.members p hp).above hle

theorem enclosing :
    ∀ id ∈ (w.store.record r).enclosing, Tier.Reaches (w.record id) tier := by
  obtain ⟨k, hk, hle⟩ := hr
  exact fun id hid => ((hw.record r k hk).2.2.enclosing id hid).above hle

theorem find? {name : String} {m : Member} (hm : (w.store.record r).find? name = some m) :
    Tier.Reaches (w.cell m.cell) tier :=
  hw.members hr _ (Record.mem_of_find? hm)

/-- What an identifier stands for can be seen from where its scope can. -/
theorem find?_scope {name : String} {m : Member} (hm : w.store.find? r name = some m) :
    Tier.Reaches (w.cell m.cell) tier := by
  obtain ⟨id, hid, hfound⟩ := List.exists_of_findSome?_eq_some hm
  obtain rfl | hid := List.mem_cons.1 hid
  · exact hw.find? hr hfound
  · exact hw.find? (hw.enclosing hr id hid) hfound

omit hr in
/-- What a new record with this parent would enclose can be seen. -/
theorem enclosing_parent {parent : Option RecordId}
    (hparent : ∀ p, parent = some p → Tier.Reaches (w.record p) tier) :
    ∀ id ∈ Access.enclosing w.store parent, Tier.Reaches (w.record id) tier := by
  intro id hid
  cases parent with
  | none => exact absurd hid List.not_mem_nil
  | some p =>
    obtain rfl | hid := List.mem_cons.1 hid
    · exact hparent id rfl
    · exact hw.enclosing (hparent p rfl) id hid

end World.Sound

/-- A record that is being filled is in no tier yet. What it has for a name can be seen from the
    tier at which it is filled, unless something else is going to take the name. -/
structure World.Filling (w : World) (tier : Tier) (names : List String) (r : RecordId) : Prop where
  unplaced : w.record r = none
  lt : r < w.store.records.size
  members : ∀ p ∈ (w.store.record r).members,
    p.1 ∈ names ∨ Tier.Reaches (w.cell p.2.cell) tier
  enclosing : ∀ id ∈ (w.store.record r).enclosing, Tier.Reaches (w.record id) tier

namespace Program

section Steps

theorem readCell_upholds (c : CellId) :
    (readCell c).Upholds begun carryOut inside w tier ∅ fun u reply =>
      u = w ∧ reply = w.store.cell c :=
  .look rfl ⟨rfl, rfl⟩

theorem readRecord_upholds (r : RecordId) :
    (readRecord r).Upholds begun carryOut inside w tier ∅ fun u reply =>
      u = w ∧ reply = w.store.record r :=
  .look rfl ⟨rfl, rfl⟩

theorem readNode_upholds (id : NodeId) :
    (readNode id).Upholds begun carryOut inside w tier ∅ fun u reply =>
      u = w ∧ reply = w.store.node id :=
  .look rfl ⟨rfl, rfl⟩

theorem readNetwork_upholds (id : NetworkId) :
    (readNetwork id).Upholds begun carryOut inside w tier ∅ fun u reply =>
      u = w ∧ reply = w.store.network id :=
  .look rfl ⟨rfl, rfl⟩

theorem find_upholds {scope : RecordId} (hscope : Tier.Reaches (w.record scope) tier)
    (name : String) :
    (find scope name).Upholds begun carryOut inside w tier ∅ fun u found =>
      u = w ∧ ∀ m, found = some m → Tier.Reaches (w.cell m.cell) tier :=
  .of_sound fun hw _ => .look rfl ⟨rfl, fun _ hm => hw.find?_scope hscope hm⟩

/-- A cell whose value is known holds no names. -/
theorem ready_upholds {v : Value} (hv : v.Fits w tier) :
    (newCell (.ready v)).Upholds begun carryOut inside w tier ∅ fun u c =>
      Tier.Reaches (u.cell c) tier := by
  refine .step fun hw hcurrent => ⟨w.addCell (.ready v) (some tier), rfl, hw.addCell ?_,
    hw.addCell_later ?_, rfl, tier, World.addCell_cell, List.suffix_refl tier⟩
  · rintro _ ⟨⟩
    refine ⟨hcurrent.numbered, ⟨hv, ?_⟩, by rintro ⟨⟩⟩
    rintro _ ⟨⟩
    exact hv
  · rintro _ ⟨⟩ ⟨⟩

/-- A suspended computation holds the names that it may give. -/
theorem suspended_upholds {task : Task} (location : Location) (path : String)
    (htask : task.Fits w tier) (hfree : ∀ name ∈ task.names, World.Free begun w tier name) :
    (newCell (.suspended task location path)).Upholds begun carryOut inside w tier task.names
      fun u c => Tier.Reaches (u.cell c) tier ∧ u.store.records = w.store.records := by
  refine .step fun hw hcurrent => ⟨w.addCell (.suspended task location path) (some tier), rfl,
    hw.addCell ?_, hw.addCell_later ?_, rfl, ⟨tier, World.addCell_cell, List.suffix_refl tier⟩, rfl⟩
  · rintro _ ⟨⟩
    exact ⟨hcurrent.numbered, ⟨htask, by rintro _ ⟨⟩⟩, fun _ => hfree⟩
  · rintro _ ⟨⟩ -
    exact ⟨List.suffix_refl tier, subset_rfl⟩

theorem suspend_upholds {e : Expr} {scope : RecordId} {path : String} (he : e.WellNamed)
    (hscope : Tier.Reaches (w.record scope) tier) (hpath : path ≠ "")
    (hopen : w.Open begun tier path) :
    (suspend e scope path).Upholds begun carryOut inside w tier (region path) fun u c =>
      Tier.Reaches (u.cell c) tier ∧ u.store.records = w.store.records :=
  have htask : (Task.evaluate e scope path).Fits w tier := ⟨he, hscope, hpath⟩
  suspended_upholds e.location path htask hopen

/-- A cell that nothing will refer to. -/
theorem newCell_upholds (c : Cell) :
    (newCell c).Upholds begun carryOut inside w tier ∅ fun _ _ => True :=
  .step fun hw _ => ⟨w.addCell c none, rfl, hw.addCell (by rintro _ ⟨⟩),
    hw.addCell_later (by rintro _ ⟨⟩), rfl, trivial⟩

theorem newRecord_upholds {parent : Option RecordId}
    (hparent : ∀ p, parent = some p → Tier.Reaches (w.record p) tier) :
    (newRecord parent).Upholds begun carryOut inside w tier ∅ fun u r =>
      u.record r = some tier := by
  refine .step fun hw hcurrent =>
    ⟨w.addRecord { enclosing := Access.enclosing w.store parent } (some tier), rfl,
      hw.addRecord ?_, hw.addRecord_later, rfl, World.addRecord_record⟩
  rintro _ ⟨⟩
  exact ⟨hcurrent.numbered, by simp, hw.enclosing_parent hparent⟩

/-- A record that is going to be filled may be kept in no tier. -/
theorem newRecord_filling {parent : Option RecordId}
    (hparent : ∀ p, parent = some p → Tier.Reaches (w.record p) tier) (names : List String) :
    (newRecord parent).Upholds begun carryOut inside w tier ∅ fun u r =>
      u.Filling tier names r := by
  refine .step fun hw _ => ⟨w.addRecord { enclosing := Access.enclosing w.store parent } none, rfl,
    hw.addRecord (by rintro _ ⟨⟩), hw.addRecord_later, rfl, World.addRecord_record,
    by simp [World.addRecord, Access.perform], ?_, ?_⟩
  · simp [World.addRecord, Access.perform]
  · have hext : w.Extends (w.addRecord { enclosing := Access.enclosing w.store parent } none) :=
      hw.addRecord_extends
    simpa [World.addRecord, Access.perform] using
      fun id hid => hext.reaches_record (hw.enclosing_parent hparent id hid)

theorem addMember_upholds {r : RecordId} (hr : w.record r = some tier) (name : String) {m : Member}
    (hm : Tier.Reaches (w.cell m.cell) tier) :
    (addMember r name m).Upholds begun carryOut inside w tier ∅ fun u _ =>
      u.store.record r = (w.store.record r).add name m := by
  refine .step fun hw _ => ?_
  obtain ⟨hsound, hlater⟩ := hw.addMember (r := r) name fun k hk =>
    Option.some.inj (hr.symm.trans hk) ▸ hm
  refine ⟨_, rfl, hsound, hlater.nowhere, rfl, ?_⟩
  simp [World.withStore, Access.perform, Store.record_modify, (hw.record r tier hr).1]

/-- Adding a value to the members of a record takes no names. -/
theorem addValue_upholds {r : RecordId} (hr : w.record r = some tier) (name : String) {v : Value}
    (hv : v.Fits w tier) :
    (addValue r name v).Upholds begun carryOut inside w tier ∅ fun _ _ => True := by
  refine .bind_still (ready_upholds hv) fun u c _ hlater hc => ?_
  exact (addMember_upholds (hlater.record r tier hr) name hc).imp subset_rfl
    fun _ _ _ _ _ => trivial

/-- Of the values that a record is filled with only the last one of each name has to be seen. -/
theorem addValue_filling {r : RecordId} {name : String} {names : List String}
    (hr : w.Filling tier (name :: names) r) {v : Value}
    (hv : name ∈ names ∨ v.Fits w tier) :
    (addValue r name v).Upholds begun carryOut inside w tier ∅ fun u _ =>
      u.Filling tier names r := by
  have hcell : (newCell (.ready v)).Upholds begun carryOut inside w tier ∅ fun u c =>
      u.Filling tier (name :: names) r ∧ (name ∈ names ∨ Tier.Reaches (u.cell c) tier) := by
    obtain ⟨own, hown, hreaches⟩ : ∃ own : Option Tier,
        (∀ k, own = some k → k = tier ∧ v.Fits w tier) ∧
          (name ∈ names ∨ Tier.Reaches own tier) := by
      obtain hname | hfits := hv
      · exact ⟨none, by rintro _ ⟨⟩, .inl hname⟩
      · refine ⟨some tier, ?_, .inr ⟨tier, rfl, List.suffix_refl tier⟩⟩
        rintro _ ⟨⟩
        exact ⟨rfl, hfits⟩
    refine .step fun hw hcurrent => ⟨w.addCell (.ready v) own, rfl, hw.addCell ?_,
      hw.addCell_later ?_, rfl, ⟨hr.unplaced, hr.lt, ?_, hr.enclosing⟩, ?_⟩
    · intro k hk
      obtain ⟨rfl, hfits⟩ := hown k hk
      refine ⟨hcurrent.numbered, ⟨hfits, ?_⟩, by rintro ⟨⟩⟩
      rintro _ ⟨⟩
      exact hfits
    · rintro _ _ ⟨⟩
    · have hext : w.Extends (w.addCell (.ready v) own) := hw.addCell_extends
      exact fun p hp => (hr.members p hp).imp_right hext.reaches_cell
    · exact hreaches.imp_right fun h => (World.addCell_cell (w := w)).symm ▸ h
  refine .bind_still hcell ?_
  rintro u c - - ⟨hu, hc⟩
  refine .step fun hw _ => ?_
  obtain ⟨hsound, hlater⟩ := hw.addMember (r := r) (m := { location := v.location, cell := c }) name
    fun k hk => by cases hu.unplaced.symm.trans hk
  have hadded : ((Access.addMember r name { location := v.location, cell := c }).perform
      u.store).2.record r = (u.store.record r).add name { location := v.location, cell := c } := by
    simp [Access.perform, Store.record_modify, hu.lt]
  refine ⟨_, rfl, hsound, hlater.nowhere, rfl, hu.unplaced, ?_, ?_, ?_⟩
  · simpa [World.withStore, Access.perform] using hu.lt
  · intro p hp
    rw [World.withStore, hadded] at hp
    obtain rfl | ⟨hp, hne⟩ := Record.mem_add hp
    · exact hc
    · exact (hu.members p hp).imp_left fun hmem => (List.mem_cons.1 hmem).resolve_left hne
  · rw [World.withStore, hadded, Record.add_enclosing]
    exact hu.enclosing

theorem print_upholds (line : String) :
    (print line).Upholds begun carryOut inside w tier ∅ fun _ _ => True := by
  refine .step fun hw _ => ?_
  obtain ⟨hsound, hlater⟩ := hw.withActions w.store.actions (w.store.printed.push line)
  exact ⟨_, rfl, hsound, hlater.nowhere, rfl, trivial⟩

theorem newAction_upholds (a : Action) :
    (newAction a).Upholds begun carryOut inside w tier ∅ fun _ _ => True := by
  refine .step fun hw _ => ?_
  obtain ⟨hsound, hlater⟩ := hw.withActions (w.store.actions.push a) w.store.printed
  exact ⟨_, rfl, hsound, hlater.nowhere, rfl, trivial⟩

/-- The names of other objects than nodes are of no account. -/
theorem rename_upholds {o : Object} (ho : ∀ id, o ≠ .node id) (name : String) :
    (rename o name).Upholds begun carryOut inside w tier ∅ fun _ _ => True := by
  cases o with
  | node id => exact absurd rfl (ho id)
  | network id => exact .look rfl trivial
  | action id =>
    refine .step fun hw _ => ?_
    obtain ⟨hsound, hlater⟩ := hw.withActions (w.store.actions.modify id ({ · with name }))
      w.store.printed
    exact ⟨_, rfl, hsound, hlater.nowhere, rfl, trivial⟩

theorem newNetwork_upholds {n : Network} (hn : n.Fits w tier) :
    (newNetwork n).Upholds begun carryOut inside w tier ∅ fun u id =>
      Tier.Reaches (u.network id) tier :=
  .step fun hw hcurrent => ⟨w.addNetwork n tier, rfl, hw.addNetwork hcurrent.numbered hn,
    hw.addNetwork_later, rfl, tier, World.addNetwork_network, List.suffix_refl tier⟩

end Steps

variable (hcalls : CallsUphold begun carryOut inside)

include hcalls

section Calls

/-- To force a cell takes no names. What its computation may give was held by the cell before. -/
theorem force_upholds {c : CellId} (hc : Tier.Reaches (w.cell c) tier) :
    (force c).Upholds begun carryOut inside w tier ∅ fun u v => v.Fits u tier := by
  refine .call hcalls hc fun u v _ _ hv => ?_
  obtain ⟨k, hk, hle⟩ := hc
  exact (hv k hk).seen ((World.Extends.refl u).shows hle)

theorem render_upholds (spec : FormatSpec) {v : Value} (hv : v.Fits w tier) :
    (render spec v).Upholds begun carryOut inside w tier ∅ fun _ _ => True :=
  .call hcalls hv fun _ _ _ _ _ => trivial

theorem tie_upholds {work visited : List Object} (hfits : ∀ o ∈ work ++ visited, o.Fits w tier)
    (hnodup : visited.Nodup) :
    (tie work visited).Upholds begun carryOut inside w tier ∅ fun u found =>
      (∀ o ∈ found, o.Fits u tier) ∧ found.Nodup :=
  .call hcalls ⟨hfits, hnodup⟩ fun _ _ _ _ hfound => hfound

theorem evaluate_upholds {e : Expr} {scope : RecordId} {path : String} (he : e.WellNamed)
    (hscope : Tier.Reaches (w.record scope) tier) (hclear : w.Clear begun tier e scope path) :
    (evaluate e scope path).Upholds begun carryOut inside w tier (region path) fun u v =>
      v.Given begun w tier path u :=
  .call hcalls ⟨he, hscope, hclear⟩ fun _ _ _ _ hv => hv.1

/-- The parts of an expression are evaluated at paths of their own. -/
theorem evaluatePart_upholds {e : Expr} {scope : RecordId} {path id : String} (he : e.WellNamed)
    (hscope : Tier.Reaches (w.record scope) tier) (hid : id ≠ "")
    (hopen : w.Open begun tier (joinPath path id)) :
    (evaluatePart e scope path id).Upholds begun carryOut inside w tier (region (joinPath path id))
      fun u v => v.Fits u tier :=
  (evaluate_upholds hcalls he hscope hopen.clear).imp subset_rfl fun _ _ _ _ hv =>
    hv.fits.resolve_right fun hempty => joinPath_ne_empty hid hempty.1

/-- What a part gives is on the record of the run. -/
theorem evaluatePart_recorded {e : Expr} {scope : RecordId} {path id : String} (he : e.WellNamed)
    (hscope : Tier.Reaches (w.record scope) tier) (hid : id ≠ "")
    (hopen : w.Open begun tier (joinPath path id)) :
    (evaluatePart e scope path id).Upholds begun carryOut inside w tier (region (joinPath path id))
      fun u v => v.Fits u tier ∧ ⟨.evaluate e scope (joinPath path id), some v⟩ ∈ begun :=
  .call hcalls ⟨he, hscope, hopen.clear⟩ fun _ _ _ _ hv =>
    ⟨hv.1.fits.resolve_right fun hempty => joinPath_ne_empty hid hempty.1, hv.2⟩

/-- If another part is going to be evaluated at the same path, this one is forgotten. -/
theorem evaluatePart_repeated {e : Expr} {scope : RecordId} {path id : String} (he : e.WellNamed)
    (hscope : Tier.Reaches (w.record scope) tier) (hid : id ≠ "")
    (hopen : w.Open begun tier (joinPath path id)) {again : Prop}
    (hrepeated : again → Repeated begun (joinPath path id)) :
    (evaluatePart e scope path id).Upholds begun carryOut inside w tier (region (joinPath path id))
      fun u v => (again ∨ v.Fits u tier) ∧
        ∀ other, w.Open begun tier other →
          again ∨ Disjoint (region other) (region (joinPath path id)) →
            u.Open begun tier other := by
  by_cases hagain : again
  · have hforgotten : (evaluatePart e scope path id).Upholds begun carryOut inside w tier ∅
        fun _ _ => True :=
      .of_sound fun hw _ => .forgotten (fun _ => (hrepeated hagain).not_unique)
        (evaluatePart_upholds hcalls he (hscope.above (w.suffix_inner tier)) hid
          (hopen.enter hw (hrepeated hagain)))
    exact hforgotten.imp (Set.empty_subset _) fun u v _ hlater _ =>
      ⟨.inl hagain, fun other hother _ => hother.later hlater (Set.disjoint_empty _)⟩
  · exact (evaluatePart_upholds hcalls he hscope hid hopen).imp subset_rfl fun u v _ hlater hv =>
      ⟨.inr hv, fun other hother h => hother.later hlater (h.resolve_left hagain)⟩

/-- A part that is called nothing is evaluated at the path of the whole. -/
theorem evaluateUnnamed_upholds {e : Expr} {scope : RecordId} {path : String} (he : e.WellNamed)
    (hscope : Tier.Reaches (w.record scope) tier) (hclear : w.Clear begun tier e scope path) :
    (evaluatePart e scope path "").Upholds begun carryOut inside w tier (region path) fun u v =>
      v.Given begun w tier path u := by
  rw [evaluatePart, joinPath_id]
  exact evaluate_upholds hcalls he hscope hclear

end Calls

section Access

theorem forceFound_upholds {found : Option CellId} (missing : EvalError)
    (hfound : ∀ c, found = some c → Tier.Reaches (w.cell c) tier) :
    (forceFound found missing).Upholds begun carryOut inside w tier ∅ fun u v =>
      v.Fits u tier := by
  cases found with
  | none => exact .raise missing
  | some c => exact force_upholds hcalls (hfound c rfl)

theorem lookup_upholds {scope : RecordId} (hscope : Tier.Reaches (w.record scope) tier)
    (name : String) (location : Location) :
    (lookup scope name location).Upholds begun carryOut inside w tier ∅ fun u v =>
      v.Fits u tier := by
  refine .bind_still (find_upholds hscope name) ?_
  rintro u found - - ⟨rfl, hfound⟩
  refine forceFound_upholds hcalls _ fun c hc => ?_
  obtain ⟨m, hm, rfl⟩ := Option.map_eq_some_iff.1 hc
  exact hfound m hm

omit hcalls in
theorem fieldCell_upholds {fields : RecordId} (hfields : Tier.Reaches (w.record fields) tier)
    (name : String) :
    (fieldCell fields name).Upholds begun carryOut inside w tier ∅ fun u found =>
      u = w ∧ ∀ c, found = some c → Tier.Reaches (w.cell c) tier := by
  refine .bind_still (readRecord_upholds fields) ?_
  rintro u r hu - ⟨rfl, rfl⟩
  refine .pure ⟨rfl, fun c hc => ?_⟩
  obtain ⟨m, hm, rfl⟩ := Option.map_eq_some_iff.1 hc
  exact hu.find? hfields hm

theorem field_upholds {fields : RecordId} (hfields : Tier.Reaches (w.record fields) tier)
    (name : String) :
    (field fields name).Upholds begun carryOut inside w tier ∅ fun u v => v.Fits u tier := by
  refine .bind_still (fieldCell_upholds hfields name) ?_
  rintro u found - - ⟨rfl, hfound⟩
  exact forceFound_upholds hcalls _ hfound

theorem optionalField_upholds {fields : RecordId} (hfields : Tier.Reaches (w.record fields) tier)
    (name : String) :
    (optionalField fields name).Upholds begun carryOut inside w tier ∅ fun _ _ => True := by
  refine .bind_still (fieldCell_upholds hfields name) ?_
  rintro u found - - ⟨rfl, hfound⟩
  cases found with
  | none => exact .pure trivial
  | some c =>
    exact .bind_still (force_upholds hcalls (hfound c rfl)) fun _ _ _ _ _ => .pure trivial

theorem forceAll_upholds {cells : List CellId}
    (hcells : ∀ c ∈ cells, Tier.Reaches (w.cell c) tier) :
    (forceAll cells).Upholds begun carryOut inside w tier ∅ fun u values =>
      ∀ v ∈ values, v.Fits u tier := by
  induction cells generalizing w with
  | nil => exact .pure (by simp)
  | cons c cells ih =>
    rw [List.forall_mem_cons] at hcells
    simp only [forceAll, List.mapM_cons]
    refine .bind_still (force_upholds hcalls hcells.1) fun u v _ hlater hv => ?_
    have hrest : ∀ c ∈ cells, Tier.Reaches (u.cell c) tier := fun c hc =>
      hlater.reaches_cell (hcells.2 c hc)
    refine .bind_still (ih hrest) fun u' values _ hlater' hvalues => .pure ?_
    rw [List.forall_mem_cons]
    exact ⟨hv.mono hlater'.toExtends, hvalues⟩

omit hcalls in
/-- The cell of a member of a network holds one of its nodes, or a field has it. -/
theorem networkMember_upholds {id : NetworkId} (hid : Tier.Reaches (w.network id) tier)
    (name : String) :
    (networkMember id name).Upholds begun carryOut inside w tier ∅ fun u found =>
      ∀ c, found = some c → Tier.Reaches (u.cell c) tier := by
  refine .bind_still (readNetwork_upholds id) ?_
  rintro u n hu - ⟨rfl, rfl⟩
  obtain ⟨k, hk, hle⟩ := hid
  have hfits := (hu.network id k hk).2.2
  cases hfind : (u.store.network id).find? name with
  | none =>
    refine (fieldCell_upholds (hfits.fields.above hle) name).imp subset_rfl ?_
    rintro v found - - ⟨rfl, hfound⟩
    exact hfound
  | some node =>
    obtain ⟨l, r, heq, -⟩ := List.lookup_eq_some_iff.1 hfind
    have hnode : u.SeesNode k node := hfits.nodes (name, node) (by simp [heq])
    refine .bind_still (ready_upholds (v := .object (.node node) _ name) (hnode.above hle)) ?_
    intro v cell _ _ hcell
    refine .pure ?_
    rintro c ⟨⟩
    exact hcell

/-- Only values that have members give any. -/
theorem memberOf_upholds {v : Value} (hv : v.HasMembers → v.Fits w tier) (name : String)
    (location : Location) :
    (memberOf v name location).Upholds begun carryOut inside w tier ∅ fun u found =>
      found.Fits u tier ∧ v.HasMembers := by
  obtain ⟨payload, place, path⟩ := v
  have hforce {p : Program (Option CellId)} {P : Prop} (hP : P)
      (hp : p.Upholds begun carryOut inside w tier ∅ fun u found =>
        ∀ c, found = some c → Tier.Reaches (u.cell c) tier) :
      Program.Upholds begun carryOut inside (do forceFound (← p) (.unknownIdentifier name location))
        w tier ∅ fun u v => v.Fits u tier ∧ P :=
    .bind_still hp fun _ _ _ _ hfound => (forceFound_upholds hcalls _ hfound).imp subset_rfl
      fun _ _ _ _ hv => ⟨hv, hP⟩
  rcases payload with _ | _ | _ | id | _ | _ | (_ | id | _)
  case record =>
    refine hforce trivial (.bind_still (find_upholds (hv trivial) name) ?_)
    rintro u found - - ⟨rfl, hfound⟩
    refine .pure fun c hc => ?_
    obtain ⟨m, hm, rfl⟩ := Option.map_eq_some_iff.1 hc
    exact hfound m hm
  case object.network => exact hforce trivial (networkMember_upholds (hv trivial) name)
  all_goals exact .raise _

end Access

end Program

namespace Function

theorem bindPositional_filling {scope : RecordId} {names : List String}
    (hscope : w.Filling tier names scope) {values : List Value}
    (hvalues : LastFit w tier names values) :
    (bindPositional scope (names.zip values)).Upholds begun carryOut inside w tier ∅ fun u _ =>
      u.Filling tier [] scope := by
  induction names generalizing w values with
  | nil => exact .pure hscope
  | cons name names ih =>
    cases values with
    | nil => exact hvalues.elim
    | cons v values =>
      refine .bind_still (Program.addValue_filling hscope hvalues.1) fun u _ _ hlater hu => ?_
      exact ih hu (hvalues.2.mono hlater.toExtends)

/-- Once all positional arguments are there, the record of the call belongs to the tier. -/
theorem bindPositional_upholds {scope : RecordId} {names : List String}
    (hscope : w.Filling tier names scope) {values : List Value}
    (hvalues : LastFit w tier names values) :
    (bindPositional scope (names.zip values)).Upholds begun carryOut inside w tier ∅ fun u _ =>
      u.record scope = some tier := by
  refine .recast (bindPositional_filling hscope hvalues) And.intro ?_
  rintro u - - hcurrent hu hwu hfilled
  have hmembers : ∀ p ∈ (u.store.record scope).members, Tier.Reaches (u.cell p.2.cell) tier :=
    fun p hp => (hfilled.members p hp).resolve_left List.not_mem_nil
  have hplaced : (u.place scope tier).Sound begun :=
    hu.place hfilled.unplaced hfilled.lt (hcurrent.numbered.later hwu.toExtends)
      ⟨hmembers, hfilled.enclosing⟩
  exact ⟨u.place scope tier, rfl, rfl, hplaced, hwu.trans (World.place_later hfilled.unplaced),
    if_pos rfl⟩

section Binding

variable {scope : RecordId} (hscope : w.record scope = some tier)

include hscope

theorem bindDefaults_upholds (passed : List (String × Value)) {named : List (String × CellId)}
    (hnamed : ∀ p ∈ named, Tier.Reaches (w.cell p.2) tier) :
    (bindDefaults scope passed named).Upholds begun carryOut inside w tier ∅ fun _ _ => True := by
  induction named generalizing w with
  | nil => exact .pure trivial
  | cons p named ih =>
    obtain ⟨name, cell⟩ := p
    rw [List.forall_mem_cons] at hnamed
    refine .bind_still (Program.readRecord_upholds scope) ?_
    rintro u r - - ⟨rfl, rfl⟩
    split
    · exact ih hscope hnamed.2
    · refine .bind_still (Program.readCell_upholds cell) ?_
      rintro u' c - - ⟨rfl, rfl⟩
      refine .bind_still (Program.addMember_upholds hscope name hnamed.1) fun v _ _ hlater _ => ?_
      exact ih (hlater.record scope tier hscope) fun p hp => hlater.reaches_cell (hnamed.2 p hp)

theorem bindNamed_upholds (location : Location) {args : List (String × Value)}
    (hargs : ∀ p ∈ args, p.2.Fits w tier) :
    (bindNamed scope location args).Upholds begun carryOut inside w tier ∅ fun _ _ => True := by
  induction args generalizing w with
  | nil => exact .pure trivial
  | cons arg args ih =>
    rw [List.forall_mem_cons] at hargs
    refine .bind_still (Program.readRecord_upholds scope) ?_
    rintro u r - - ⟨rfl, rfl⟩
    split
    · exact .raise _
    · refine .bind_still (Program.addValue_upholds hscope arg.1 hargs.1) fun v _ _ hlater _ => ?_
      exact ih (hlater.record scope tier hscope) fun p hp => (hargs.2 p hp).mono hlater.toExtends

end Binding

variable {f : Function} (hf : f.Fits w tier) {args : List Value}
  {named : List (String × Value)}
  (hargs : args.length = f.arity → LastFit w tier f.params args)
  (hnamed : ∀ p ∈ named, p.2.Fits w tier)

include hf hargs hnamed

theorem bindArguments_upholds (location : Location) :
    (f.bindArguments args named location).Upholds begun carryOut inside w tier ∅ fun u scope =>
      Tier.Reaches (u.record scope) tier := by
  unfold bindArguments
  split
  · next harity =>
    have hparent : ∀ p, some f.scope = some p → Tier.Reaches (w.record p) tier := by
      rintro p ⟨⟩
      exact hf.scope
    refine .bind_still (Program.newRecord_filling hparent f.params) fun u scope _ hwu hscope => ?_
    refine .bind_still (bindPositional_upholds hscope ((hargs harity).mono hwu.toExtends))
      fun v _ _ huv hv => ?_
    have hdefaults : ∀ p ∈ f.named, Tier.Reaches (v.cell p.2) tier := fun p hp =>
      huv.reaches_cell (hwu.reaches_cell (hf.named p hp))
    refine .bind_still (bindDefaults_upholds hv named hdefaults) fun x _ _ hvx _ => ?_
    have hnamed' : ∀ p ∈ named, p.2.Fits x tier := fun p hp =>
      (hnamed p hp).mono ((hwu.trans huv).trans hvx).toExtends
    refine .bind_still (bindNamed_upholds (hvx.record scope tier hv) location hnamed')
      fun y _ _ hxy _ => ?_
    exact .pure ⟨tier, hxy.record scope tier (hvx.record scope tier hv), List.suffix_refl tier⟩
  · exact .raise _

/-- A call only gives names at the path of the body. -/
theorem apply_upholds (hcalls : CallsUphold begun carryOut inside) {path : String}
    (hopen : w.Open begun tier (joinPath path s!"[{f.name}]")) (location : Location) :
    (f.apply args named path location).Upholds begun carryOut inside w tier
      (region (joinPath path s!"[{f.name}]")) fun u v => v.Fits u tier := by
  refine .bind_still (bindArguments_upholds hf hargs hnamed location) ?_
  intro u scope _ hlater hscope
  exact Program.evaluatePart_upholds hcalls hf.body hscope (partId_body f.name).ne_empty
    (hopen.later hlater (Set.disjoint_empty _))

end Function

end NetDesc
