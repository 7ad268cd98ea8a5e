import NetDesc.Proofs.Naming.World

namespace NetDesc

namespace World

variable {begun : List Computation} {w u : World} {tier : Tier} {names : Set String}

section Holding

/-- A holder that takes names which are free is apart from all others. With this, each step on
    the store belongs to a step from one sound world to another. -/
theorem Sound.apart_of_taken (h : w.Sound begun) (hext : w.Extends u) (x : Holder)
    (hothers : ∀ a k, a ≠ x → u.holds a k ⊆ w.holds a k)
    (hx : ∀ k name, name ∈ u.holds x k → name ∈ w.holds x k ∨ Free begun w k name) :
    ∀ a b k l name, a ≠ b → name ∈ u.holds a k → name ∈ u.holds b l →
      ¬u.Clash begun k l name := by
  have hone {b : Holder} {k l : Tier} {name : String} (hb : b ≠ x) (hname : name ∈ u.holds x k)
      (hname' : name ∈ u.holds b l) : ¬u.Clash begun k l name := by
    intro hclash
    replace hclash := hclash.before hext.forgotten
    obtain hw | hfree := hx k name hname
    · exact h.apart x b k l name hb.symm hw (hothers b l hb hname') hclash
    · exact hfree b l (hothers b l hb hname') hclash.symm
  intro a b k l name hab hname hname'
  by_cases ha : a = x
  · subst ha
    exact hone hab.symm hname hname'
  · by_cases hb : b = x
    · subst hb
      exact fun hclash => hone hab hname' hname hclash.symm
    · exact fun hclash => h.apart a b k l name hab (hothers a k ha hname) (hothers b l hb hname')
        (hclash.before hext.forgotten)

theorem Sound.apart_of_subset (h : w.Sound begun) (hforgotten : w.forgotten ⊆ u.forgotten)
    (hheld : ∀ a k, u.holds a k ⊆ w.holds a k) :
    ∀ a b k l name, a ≠ b → name ∈ u.holds a k → name ∈ u.holds b l →
      ¬u.Clash begun k l name :=
  fun a b k l name hab hname hname' hclash => h.apart a b k l name hab (hheld a k hname)
    (hheld b l hname') (hclash.before hforgotten)

theorem later_of_taken (hext : w.Extends u) (x : Holder)
    (hothers : ∀ a k, a ≠ x → u.holds a k ⊆ w.holds a k)
    (hx : ∀ k name, name ∈ u.holds x k → name ∈ w.holds x k ∨ tier <:+ k ∧ name ∈ names) :
    w.Later begun tier names u := by
  have htaken {a : Holder} {k : Tier} {name : String} (hname : name ∈ u.holds a k) :
      name ∈ w.holds a k ∨ tier <:+ k ∧ name ∈ names := by
    by_cases ha : a = x
    · subst ha
      exact hx k name hname
    · exact .inl (hothers a k ha hname)
  exact {
    toExtends := hext
    held := fun k name ⟨hlive, a, l, hname, hl⟩ => (htaken hname).imp
      (fun hw => ⟨hlive.before hext.forgotten, a, l, hw, hl⟩) (And.imp_left (·.trans hl))
    unique := fun a k name hname _ => (htaken hname).imp (fun hw => ⟨a, k, hw⟩) And.right }

theorem later_of_subset (hext : w.Extends u) (hheld : ∀ a k, u.holds a k ⊆ w.holds a k) :
    w.Later begun tier names u where
  toExtends := hext
  held _ _ := fun ⟨hlive, a, l, hname, hl⟩ =>
    .inl ⟨hlive.before hext.forgotten, a, l, hheld a l hname, hl⟩
  unique a k _ hname _ := .inl ⟨a, k, hheld a k hname⟩

end Holding

section Extended

variable (h : w.Sound begun) (hext : w.Extends u) {k : Tier}

include h hext

/-- Things that have not changed themselves still fit their tiers. -/
theorem Sound.cell_mono {c : CellId} (hk : w.cell c = some k) :
    c < w.store.cells.size ∧ u.Numbered k ∧ (w.store.cell c).Fits u k := by
  obtain ⟨hlt, hnumbered, hfits⟩ := h.cell c k hk
  exact ⟨hlt, hnumbered.later hext, hfits.seen hext.kept⟩

theorem Sound.record_mono {r : RecordId} (hk : w.record r = some k) :
    r < w.store.records.size ∧ u.Numbered k ∧ (w.store.record r).Fits u k := by
  obtain ⟨hlt, hnumbered, hfits⟩ := h.record r k hk
  exact ⟨hlt, hnumbered.later hext, hfits.seen hext.kept⟩

theorem Sound.node_mono {id : NodeId} (hk : w.node id = some k) :
    id < w.store.nodes.size ∧ u.Numbered k ∧ (w.store.node id).Fits u k := by
  obtain ⟨hlt, hnumbered, hfits⟩ := h.node id k hk
  exact ⟨hlt, hnumbered.later hext, hfits.seen hext.kept⟩

theorem Sound.network_mono {id : NetworkId} (hk : w.network id = some k) :
    id < w.store.networks.size ∧ u.Numbered k ∧ (w.store.network id).Fits u k := by
  obtain ⟨hlt, hnumbered, hfits⟩ := h.network id k hk
  exact ⟨hlt, hnumbered.later hext, hfits.seen hext.kept⟩

end Extended

/-- Only cells have changed, or their tiers. -/
theorem Sound.of_cells (h : w.Sound begun) {cells : Array Cell} {cell : CellId → Option Tier}
    (hext : w.Extends { w with store := { w.store with cells }, cell })
    (hcell : ∀ c k, cell c = some k →
      c < cells.size ∧ w.Numbered k ∧ (Store.cell { w.store with cells } c).Fits w k)
    (hapart : ∀ a b k l name, a ≠ b →
      name ∈ World.holds { w with store := { w.store with cells }, cell } a k →
        name ∈ World.holds { w with store := { w.store with cells }, cell } b l →
          ¬World.Clash { w with store := { w.store with cells }, cell } begun k l name) :
    World.Sound begun { w with store := { w.store with cells }, cell } where
  cell c k hk :=
    let ⟨hlt, hnumbered, hfits⟩ := hcell c k hk
    ⟨hlt, hnumbered, hfits.seen hext.kept⟩
  record _ _ := h.record_mono hext
  node _ _ := h.node_mono hext
  network _ _ := h.network_mono hext
  placed := h.placed
  forgotten := h.forgotten
  apart := hapart

/-- Only records have changed, or their tiers. -/
theorem Sound.of_records (h : w.Sound begun) {records : Array Record}
    {record : RecordId → Option Tier}
    (hext : w.Extends { w with store := { w.store with records }, record })
    (hrecord : ∀ r k, record r = some k →
      r < records.size ∧ w.Numbered k ∧ (Store.record { w.store with records } r).Fits w k) :
    World.Sound begun { w with store := { w.store with records }, record } where
  cell _ _ := h.cell_mono hext
  record r k hk :=
    let ⟨hlt, hnumbered, hfits⟩ := hrecord r k hk
    ⟨hlt, hnumbered, hfits.seen hext.kept⟩
  node _ _ := h.node_mono hext
  network _ _ := h.network_mono hext
  placed := h.placed
  forgotten := h.forgotten
  apart := h.apart_of_subset hext.forgotten fun a _ _ h => by cases a <;> exact h

/-- The same things with another store. -/
def withStore (w : World) (s : Store) : World :=
  { w with store := s }

section Cells

/-- A new cell, in a tier or in none. -/
def addCell (w : World) (c : Cell) (own : Option Tier) : World :=
  { w with
    store := { w.store with cells := w.store.cells.push c }
    cell := fun id => if id = w.store.cells.size then own else w.cell id }

variable {c : Cell} {own : Option Tier}

theorem Sound.addCell_extends (h : w.Sound begun) : w.Extends (w.addCell c own) :=
  { World.Extends.refl w with
    cell := fun id k hk => (if_neg (Nat.ne_of_lt (h.cell id k hk).1)).trans hk }

theorem addCell_holds {a : Holder} (ha : a ≠ .cell w.store.cells.size) (k : Tier) :
    (w.addCell c own).holds a k ⊆ w.holds a k := by
  cases a with
  | reserve => exact fun _ h => h
  | node id => exact fun _ h => h
  | cell id =>
    have hne : id ≠ w.store.cells.size := fun heq => ha (congrArg _ heq)
    simp only [holds, addCell, Store.cell_push, if_neg hne]
    exact subset_rfl

/-- A cell that is new holds what its computation may name, if it is pending. -/
theorem addCell_holds_new {k : Tier} {name : String}
    (hname : name ∈ (w.addCell c own).holds (.cell w.store.cells.size) k) :
    own = some k ∧ c.progress = .pending ∧ name ∈ c.task.names := by
  simp only [holds, addCell, Store.cell_push, if_true] at hname
  exact hname

theorem Sound.addCell (h : w.Sound begun)
    (hc : ∀ k, own = some k → w.Numbered k ∧ c.Fits w k ∧
      (c.progress = .pending → ∀ name ∈ c.task.names, Free begun w k name)) :
    (w.addCell c own).Sound begun := by
  have hext : w.Extends (w.addCell c own) := h.addCell_extends
  refine h.of_cells hext (fun id k hk => ?_) ?_
  · rw [Store.cell_push, Array.size_push]
    by_cases hid : id = w.store.cells.size
    · have hown : own = some k := (if_pos hid).symm.trans hk
      obtain ⟨hnumbered, hfits, -⟩ := hc k hown
      rw [if_pos hid]
      exact ⟨Nat.lt_succ_of_le (Nat.le_of_eq hid), hnumbered, hfits⟩
    · obtain ⟨hlt, hnumbered, hfits⟩ := h.cell id k ((if_neg hid).symm.trans hk)
      rw [if_neg hid]
      exact ⟨Nat.lt_succ_of_lt hlt, hnumbered, hfits⟩
  · refine h.apart_of_taken hext (.cell w.store.cells.size) (fun a k ha => addCell_holds ha k) ?_
    intro k name hname
    obtain ⟨hown, hpending, hname⟩ := addCell_holds_new hname
    exact .inr ((hc k hown).2.2 hpending name hname)

theorem Sound.addCell_later (h : w.Sound begun)
    (hc : ∀ k, own = some k → c.progress = .pending → tier <:+ k ∧ c.task.names ⊆ names) :
    w.Later begun tier names (w.addCell c own) :=
  later_of_taken h.addCell_extends (.cell w.store.cells.size) (fun _ k ha => addCell_holds ha k)
    fun k name hname => by
      obtain ⟨hown, hpending, hname⟩ := addCell_holds_new hname
      exact .inr ((hc k hown hpending).imp_right fun hsub => hsub hname)

theorem addCell_cell : (w.addCell c own).cell w.store.cells.size = own :=
  if_pos rfl

end Cells

section Records

/-- A new record, in a tier or in none. -/
def addRecord (w : World) (r : Record) (own : Option Tier) : World :=
  { w with
    store := { w.store with records := w.store.records.push r }
    record := fun id => if id = w.store.records.size then own else w.record id }

variable {r : Record} {own : Option Tier}

theorem Sound.addRecord_extends (h : w.Sound begun) : w.Extends (w.addRecord r own) :=
  { World.Extends.refl w with
    record := fun id k hk => (if_neg (Nat.ne_of_lt (h.record id k hk).1)).trans hk }

theorem Sound.addRecord_later (h : w.Sound begun) : w.Later begun tier names (w.addRecord r own) :=
  later_of_subset h.addRecord_extends fun a _ _ h => by cases a <;> exact h

theorem Sound.addRecord (h : w.Sound begun)
    (hr : ∀ k, own = some k → w.Numbered k ∧ r.Fits w k) : (w.addRecord r own).Sound begun := by
  refine h.of_records h.addRecord_extends fun id k hk => ?_
  rw [Store.record_push, Array.size_push]
  by_cases hid : id = w.store.records.size
  · obtain ⟨hnumbered, hfits⟩ := hr k ((if_pos hid).symm.trans hk)
    rw [if_pos hid]
    exact ⟨Nat.lt_succ_of_le (Nat.le_of_eq hid), hnumbered, hfits⟩
  · obtain ⟨hlt, hnumbered, hfits⟩ := h.record id k ((if_neg hid).symm.trans hk)
    rw [if_neg hid]
    exact ⟨Nat.lt_succ_of_lt hlt, hnumbered, hfits⟩

theorem addRecord_record : (w.addRecord r own).record w.store.records.size = own :=
  if_pos rfl

/-- A record that has been in no tier is put in one. -/
def place (w : World) (r : RecordId) (tier : Tier) : World :=
  { w with record := fun id => if id = r then some tier else w.record id }

theorem place_extends {r : RecordId} (hr : w.record r = none) : w.Extends (w.place r tier) :=
  { World.Extends.refl w with
    record := fun id k hk => by
      have hne : id ≠ r := by
        rintro rfl
        cases hr.symm.trans hk
      exact (if_neg hne).trans hk }

theorem place_later {r : RecordId} (hr : w.record r = none) :
    w.Later begun tier names (w.place r tier) :=
  later_of_subset (place_extends hr) fun a _ _ h => by cases a <;> exact h

theorem Sound.place (h : w.Sound begun) {r : RecordId} (hr : w.record r = none)
    (hlt : r < w.store.records.size) (hnumbered : w.Numbered tier)
    (hfits : (w.store.record r).Fits w tier) : (w.place r tier).Sound begun := by
  refine h.of_records (place_extends hr) fun id k hk => ?_
  by_cases hid : id = r
  · subst hid
    obtain rfl : tier = k := Option.some.inj ((if_pos rfl).symm.trans hk)
    exact ⟨hlt, hnumbered, hfits⟩
  · exact h.record id k ((if_neg hid).symm.trans hk)

end Records

section Nodes

/-- A new node in a tier. -/
def addNode (w : World) (n : Node) (own : Tier) : World :=
  { w with
    store := { w.store with nodes := w.store.nodes.push n }
    node := fun id => if id = w.store.nodes.size then some own else w.node id }

variable {n : Node} {own : Tier}

theorem Sound.addNode_extends (h : w.Sound begun) : w.Extends (w.addNode n own) where
  cell _ _ h := h
  record _ _ h := h
  node id k hk := (if_neg (Nat.ne_of_lt (h.node id k hk).1)).trans hk
  network _ _ h := h
  named id k hk hname := by
    simp only [addNode, Store.node_push, if_neg (Nat.ne_of_lt (h.node id k hk).1)]
    exact hname
  next := Nat.le_refl _
  forgotten := subset_rfl
  remembered _ hn _ := hn
  since := rfl

theorem addNode_holds {a : Holder} (ha : a ≠ .node w.store.nodes.size) (k : Tier) :
    (w.addNode n own).holds a k ⊆ w.holds a k := by
  cases a with
  | reserve => exact fun _ h => h
  | cell id => exact fun _ h => h
  | node id =>
    have hne : id ≠ w.store.nodes.size := fun heq => ha (congrArg _ heq)
    simp only [holds, addNode, Store.node_push, if_neg hne]
    exact subset_rfl

theorem addNode_holds_new {k : Tier} {name : String}
    (hname : name ∈ (w.addNode n own).holds (.node w.store.nodes.size) k) :
    own = k ∧ n.name = name := by
  simp only [holds, addNode, Store.node_push, if_true, Option.some.injEq] at hname
  exact hname

theorem Sound.addNode (h : w.Sound begun) (hnumbered : w.Numbered own) (hn : n.Fits w own)
    (hfree : Free begun w own n.name) : (w.addNode n own).Sound begun := by
  have hext : w.Extends (w.addNode n own) := h.addNode_extends
  have hold {id : NodeId} (hid : id ≠ w.store.nodes.size) {k : Tier}
      (hk : (w.addNode n own).node id = some k) : w.node id = some k :=
    (if_neg hid).symm.trans hk
  exact {
    cell := fun _ _ => h.cell_mono hext
    record := fun _ _ => h.record_mono hext
    node := fun id k hk => by
      by_cases hid : id = w.store.nodes.size
      · subst hid
        obtain rfl : own = k := Option.some.inj ((if_pos rfl).symm.trans hk)
        refine ⟨by simp [World.addNode], hnumbered, ?_⟩
        simp only [World.addNode, Store.node_push, if_true]
        exact hn.seen hext.kept
      · obtain ⟨hlt, hnumbered', hfits⟩ := h.node_mono hext (hold hid hk)
        refine ⟨?_, hnumbered', ?_⟩
        · simp only [World.addNode, Array.size_push]
          exact Nat.lt_succ_of_lt hlt
        · simp only [World.addNode, Store.node_push, if_neg hid]
          exact hfits
    network := fun _ _ => h.network_mono hext
    placed := fun id hid hsince => by
      by_cases hnew : id = w.store.nodes.size
      · exact ⟨own, if_pos hnew⟩
      · simp only [World.addNode, Array.size_push] at hid
        obtain ⟨k, hk⟩ := h.placed id (Nat.lt_of_le_of_ne (Nat.le_of_lt_succ hid) hnew) hsince
        exact ⟨k, (if_neg hnew).trans hk⟩
    forgotten := h.forgotten
    apart := h.apart_of_taken hext (.node w.store.nodes.size) (fun a k ha => addNode_holds ha k)
      fun k name hname => by
        obtain ⟨rfl, rfl⟩ := addNode_holds_new hname
        exact .inr hfree }

theorem Sound.addNode_later (h : w.Sound begun) (hname : n.name ∈ names) :
    w.Later begun own names (w.addNode n own) :=
  later_of_taken h.addNode_extends (.node w.store.nodes.size) (fun _ k ha => addNode_holds ha k)
    fun k name hheld => by
      obtain ⟨rfl, rfl⟩ := addNode_holds_new hheld
      exact .inr ⟨List.suffix_refl own, hname⟩

theorem addNode_sees (hname : n.name ≠ "") :
    (w.addNode n own).SeesNode own w.store.nodes.size := by
  refine ⟨⟨own, if_pos rfl, List.suffix_refl own⟩, ?_⟩
  simp only [addNode, Store.node_push, if_true]
  exact hname

end Nodes

section Networks

/-- A new network in a tier. -/
def addNetwork (w : World) (n : Network) (own : Tier) : World :=
  { w with
    store := { w.store with networks := w.store.networks.push n }
    network := fun id => if id = w.store.networks.size then some own else w.network id }

variable {n : Network} {own : Tier}

theorem Sound.addNetwork_extends (h : w.Sound begun) : w.Extends (w.addNetwork n own) :=
  { World.Extends.refl w with
    network := fun id k hk => (if_neg (Nat.ne_of_lt (h.network id k hk).1)).trans hk }

theorem Sound.addNetwork_later (h : w.Sound begun) :
    w.Later begun tier names (w.addNetwork n own) :=
  later_of_subset h.addNetwork_extends fun a _ _ h => by cases a <;> exact h

theorem Sound.addNetwork (h : w.Sound begun) (hnumbered : w.Numbered own) (hn : n.Fits w own) :
    (w.addNetwork n own).Sound begun := by
  have hext : w.Extends (w.addNetwork n own) := h.addNetwork_extends
  exact {
    cell := fun _ _ => h.cell_mono hext
    record := fun _ _ => h.record_mono hext
    node := fun _ _ => h.node_mono hext
    network := fun id k hk => by
      by_cases hid : id = w.store.networks.size
      · subst hid
        obtain rfl : own = k := Option.some.inj ((if_pos rfl).symm.trans hk)
        refine ⟨by simp [World.addNetwork], hnumbered, ?_⟩
        simp only [World.addNetwork, Store.network_push, if_true]
        exact hn.seen hext.kept
      · obtain ⟨hlt, hnumbered', hfits⟩ := h.network_mono hext ((if_neg hid).symm.trans hk)
        refine ⟨?_, hnumbered', ?_⟩
        · simp only [World.addNetwork, Array.size_push]
          exact Nat.lt_succ_of_lt hlt
        · simp only [World.addNetwork, Store.network_push, if_neg hid]
          exact hfits
    placed := h.placed
    forgotten := h.forgotten
    apart := h.apart_of_subset hext.forgotten fun a _ _ h => by cases a <;> exact h }

theorem addNetwork_network : (w.addNetwork n own).network w.store.networks.size = some own :=
  if_pos rfl

end Networks

section Changed

/-- Members may be added to a record, as long as they can be seen from its tier. -/
theorem Sound.addMember (h : w.Sound begun) {r : RecordId} (name : String) {m : Member}
    (hm : ∀ k, w.record r = some k → Tier.Reaches (w.cell m.cell) k) :
    (w.withStore ((Access.addMember r name m).perform w.store).2).Sound begun ∧
      w.Later begun [] ∅ (w.withStore ((Access.addMember r name m).perform w.store).2) := by
  have hext : w.Extends (w.withStore ((Access.addMember r name m).perform w.store).2) :=
    { World.Extends.refl w with }
  have hheld (a : Holder) (l : Tier) :
      (w.withStore ((Access.addMember r name m).perform w.store).2).holds a l ⊆ w.holds a l := by
    cases a <;> exact fun _ h => h
  refine ⟨h.of_records hext fun id l hid => ?_, later_of_subset hext hheld⟩
  obtain ⟨hlt, hnumbered, hfits⟩ := h.record id l hid
  refine ⟨by simpa using hlt, hnumbered, ?_⟩
  rw [Store.record_modify]
  split
  · next heq =>
    obtain ⟨rfl, -⟩ := heq
    refine ⟨fun p hp => ?_, (Record.add_enclosing ..).symm ▸ hfits.enclosing⟩
    obtain rfl | ⟨hp, -⟩ := Record.mem_add hp
    · exact hm l hid
    · exact hfits.members p hp
  · exact hfits

/-- An input that is tied has to be seen from the tier of the node. -/
theorem Sound.tieInput (h : w.Sound begun) {id input : NodeId} {k : Tier} (hid : w.node id = some k)
    (hinput : w.SeesNode k input) :
    (w.withStore ((Access.tieInput id input).perform w.store).2).Sound begun ∧
      w.Later begun [] ∅ (w.withStore ((Access.tieInput id input).perform w.store).2) := by
  have hname (i : NodeId) :
      (((Access.tieInput id input).perform w.store).2.node i).name = (w.store.node i).name := by
    simp only [Access.perform, Store.node_modify]
    split <;> rfl
  have hext : w.Extends (w.withStore ((Access.tieInput id input).perform w.store).2) :=
    { World.Extends.refl w with named := fun i k _ h => (hname i).symm ▸ h }
  have hheld (a : Holder) (l : Tier) :
      (w.withStore ((Access.tieInput id input).perform w.store).2).holds a l ⊆ w.holds a l := by
    cases a with
    | node i =>
      rintro name ⟨hi, hsame⟩
      exact ⟨hi, (hname i).symm.trans hsame⟩
    | _ => exact fun _ h => h
  refine ⟨?_, later_of_subset hext hheld⟩
  exact {
    cell := fun _ _ => h.cell_mono hext
    record := fun _ _ => h.record_mono hext
    node := fun i l hi => by
      obtain ⟨hlt, hnumbered, hfits⟩ := h.node i l hi
      refine ⟨by simpa [withStore, Access.perform] using hlt, hnumbered, ?_⟩
      have hfits' := hfits.seen hext.kept
      simp only [withStore, Access.perform, Store.node_modify]
      split
      · next heq =>
        obtain ⟨rfl, -⟩ := heq
        obtain rfl : k = l := Option.some.inj (hid.symm.trans hi)
        refine ⟨fun j hj => ?_, by rintro _ ⟨⟩⟩
        obtain hj | hj := List.mem_append.1 hj
        · exact hfits'.inputs j hj
        · obtain rfl := List.mem_singleton.1 hj
          exact hext.seesNode hinput
      · exact hfits'
    network := fun _ _ => h.network_mono hext
    placed := fun i hi => h.placed i (by simpa [withStore, Access.perform] using hi)
    forgotten := h.forgotten
    apart := h.apart_of_subset hext.forgotten hheld }

/-- The progress of a cell that is pending or running changes to running or finished. It does not
    become pending, and what it finishes with fits its tier. -/
theorem Sound.setProgress (h : w.Sound begun) {c : CellId} {p : Progress} (hp : p ≠ .pending)
    (hvalue : ∀ k v, w.cell c = some k → p = .finished v → v.Fits w k) :
    (w.withStore (w.store.setProgress c p)).Sound begun ∧
      w.Later begun [] ∅ (w.withStore (w.store.setProgress c p)) := by
  have hext : w.Extends (w.withStore (w.store.setProgress c p)) := { World.Extends.refl w with }
  have hheld (a : Holder) (k : Tier) :
      (w.withStore (w.store.setProgress c p)).holds a k ⊆ w.holds a k := by
    cases a with
    | cell id =>
      rintro name ⟨hid, hpending, hname⟩
      simp only [withStore, Store.setProgress_cell] at hpending hname
      split at hpending
      · exact (hp hpending).elim
      · next hne =>
        rw [if_neg hne] at hname
        exact ⟨hid, hpending, hname⟩
    | _ => exact fun _ h => h
  refine ⟨h.of_cells hext (fun id k hk => ?_) (h.apart_of_subset hext.forgotten hheld),
    later_of_subset hext hheld⟩
  obtain ⟨hlt, hnumbered, hfits⟩ := h.cell id k hk
  refine ⟨by simpa using hlt, hnumbered, ?_⟩
  change ((w.store.setProgress c p).cell id).Fits w k
  rw [Store.setProgress_cell]
  split
  · next heq =>
    obtain ⟨rfl, -⟩ := heq
    exact ⟨hfits.task, fun v hv => hvalue k v hk hv⟩
  · exact hfits

/-- Actions and what is printed are of no account. -/
theorem Sound.withActions (h : w.Sound begun) (actions : Array Action) (printed : Array String) :
    (w.withStore { w.store with actions, printed }).Sound begun ∧
      w.Later begun [] ∅ (w.withStore { w.store with actions, printed }) := by
  have hext : w.Extends (w.withStore { w.store with actions, printed }) :=
    { World.Extends.refl w with }
  refine ⟨?_, later_of_subset hext fun a _ _ h => by cases a <;> exact h⟩
  exact {
    cell := fun _ _ => h.cell_mono hext
    record := fun _ _ => h.record_mono hext
    node := fun _ _ => h.node_mono hext
    network := fun _ _ => h.network_mono hext
    placed := h.placed
    forgotten := h.forgotten
    apart := h.apart_of_subset hext.forgotten fun a _ _ h => by cases a <;> exact h }

end Changed

section Tiers

/-- What belongs to the tiers is the same, however many tiers there have been. -/
theorem Sound.recount (h : w.Sound begun) {reserved : Bool} {next : Nat} {forgotten : Set Nat}
    (hreserved : reserved = true → w.reserved = true) (hnext : w.next ≤ next)
    (hforgotten : w.forgotten ⊆ forgotten) (hpast : ∀ n ∈ forgotten, n < next) :
    World.Sound begun { w with reserved, next, forgotten } := by
  have hshows (k : Tier) : w.Shows k { w with reserved, next, forgotten } k :=
    ⟨fun _ h => h, fun _ h => h, fun _ h => h, fun _ h => h⟩
  have hnumbered {k : Tier} (hk : w.Numbered k) :
      World.Numbered { w with reserved, next, forgotten } k :=
    fun n hn => Nat.lt_of_lt_of_le (hk n hn) hnext
  exact {
    cell := fun c k hk =>
      let ⟨hlt, hk', hfits⟩ := h.cell c k hk
      ⟨hlt, hnumbered hk', hfits.seen (hshows k)⟩
    record := fun r k hk =>
      let ⟨hlt, hk', hfits⟩ := h.record r k hk
      ⟨hlt, hnumbered hk', hfits.seen (hshows k)⟩
    node := fun id k hk =>
      let ⟨hlt, hk', hfits⟩ := h.node id k hk
      ⟨hlt, hnumbered hk', hfits.seen (hshows k)⟩
    network := fun id k hk =>
      let ⟨hlt, hk', hfits⟩ := h.network id k hk
      ⟨hlt, hnumbered hk', hfits.seen (hshows k)⟩
    placed := h.placed
    forgotten := hpast
    apart := h.apart_of_subset hforgotten fun a k name hname => by
      cases a with
      | reserve => exact ⟨hreserved hname.1, hname.2⟩
      | _ => exact hname }

/-- The next tier has been given a number. -/
def enter (w : World) : World :=
  { w with next := w.next + 1 }

/-- A tier of its own above another one. -/
def inner (w : World) (tier : Tier) : Tier :=
  w.next :: tier

theorem suffix_inner (w : World) (tier : Tier) : tier <:+ w.inner tier :=
  List.suffix_cons w.next tier

theorem enter_extends (w : World) : w.Extends w.enter :=
  { World.Extends.refl w with
    next := Nat.le_succ _
    remembered := fun _ hn _ => hn }

theorem enter_later (w : World) : w.Later begun tier names w.enter :=
  later_of_subset w.enter_extends fun a _ _ h => by cases a <;> exact h

theorem Sound.enter (h : w.Sound begun) : w.enter.Sound begun :=
  h.recount id (Nat.le_succ _) subset_rfl fun n hn => Nat.lt_succ_of_lt (h.forgotten n hn)

theorem Sound.current_inner (h : w.Sound begun) {k : Tier} (hk : w.Current k) :
    w.enter.Current (w.inner k) := by
  constructor <;> intro n hn <;> obtain rfl | hn := List.mem_cons.1 hn
  · exact Nat.lt_succ_self _
  · exact Nat.lt_succ_of_lt (hk.numbered n hn)
  · exact fun hmem => Nat.lt_irrefl _ (h.forgotten _ hmem)
  · exact hk.live n hn

/-- Whatever holds names belongs to a tier with numbers that have been given. -/
theorem Sound.holds_numbered (h : w.Sound begun) {a : Holder} {k : Tier} {name : String}
    (hname : name ∈ w.holds a k) : w.Numbered k := by
  cases a with
  | reserve =>
    obtain ⟨-, rfl, -⟩ := hname
    exact fun n hn => absurd hn List.not_mem_nil
  | cell c => exact (h.cell c k hname.1).2.1
  | node id => exact (h.node id k hname.1).2.1

/-- Names that nothing below holds are free in a new tier, if they need not be unique or were free
    before. -/
theorem Sound.free_inner (h : w.Sound begun) {name : String} (hcovers : ¬w.Covers tier name)
    (hname : ¬UniqueName begun name ∨ Free begun w tier name) :
    Free begun w.enter (w.inner tier) name := by
  intro a k hheld hclash
  replace hheld : name ∈ w.holds a k := by cases a <;> exact hheld
  have hnumbered := h.holds_numbered hheld
  have hfresh : w.next ∉ k := fun hmem => Nat.lt_irrefl _ (hnumbered _ hmem)
  obtain ⟨hle | hle, -, hlive⟩ | hunique := hclash
  · obtain rfl | hle := List.suffix_cons_iff.1 hle
    · exact hfresh List.mem_cons_self
    · exact hcovers ⟨World.Live.below hlive (w.suffix_inner tier), a, k, hheld, hle⟩
  · exact hfresh (hle.subset List.mem_cons_self)
  · obtain hnot | hfree := hname
    · exact hnot hunique
    · exact hfree a k hheld (.inr hunique)

theorem Later.leave (h : w.enter.Later begun (w.inner tier) names u) : w.Later begun tier names u :=
  w.enter_later.trans (h.widen (w.suffix_inner tier) subset_rfl)

/-- What has been taken in a tier of its own is in no way of the tier below. -/
theorem Later.not_covers_leave (h : w.enter.Later begun (w.inner tier) names u) {name : String}
    (hcovers : ¬w.Covers tier name) : ¬u.Covers tier name := by
  refine (w.enter_later.trans h).not_covers hcovers (.inl fun hle => ?_)
  have := hle.length_le
  simp only [inner, List.length_cons] at this
  omega

/-- What belongs to the tiers with this number is of no use any more. -/
def forget (w : World) (number : Nat) : World :=
  { w with forgotten := insert number w.forgotten }

theorem Sound.forget (h : w.Sound begun) {number : Nat} (hnumber : number < w.next) :
    (w.forget number).Sound begun := by
  refine h.recount id (Nat.le_refl _) (Set.subset_insert number w.forgotten) ?_
  rintro n (rfl | hn)
  · exact hnumber
  · exact h.forgotten n hn

/-- Once a tier is forgotten nothing has been taken, if nothing was that has to be unique. -/
theorem Later.forget (h : w.enter.Later begun (w.inner tier) names u)
    (hnames : ∀ name ∈ names, ¬UniqueName begun name) (more : Set String) :
    w.Later begun tier more (u.forget w.next) := by
  have hext := w.enter_extends.trans h.toExtends
  have hheld (a : Holder) (k : Tier) : (u.forget w.next).holds a k ⊆ u.holds a k := by
    cases a <;> exact subset_rfl
  exact { hext with
    forgotten := hext.forgotten.trans (Set.subset_insert w.next u.forgotten)
    remembered := by
      rintro n (rfl | hn) hlt
      · exact absurd hlt (Nat.lt_irrefl _)
      · exact hext.remembered n hn hlt
    held := fun k name ⟨hlive, a, l, hname, hl⟩ => by
      have hlive' : u.Live k := hlive.before (Set.subset_insert w.next u.forgotten)
      obtain ⟨hw, b, m, hb, hm⟩ | ⟨hle, -⟩ := h.held k name ⟨hlive', a, l, hheld a l hname, hl⟩
      · exact .inl ⟨hw, b, m, by cases b <;> exact hb, hm⟩
      · exact absurd (Set.mem_insert _ _) (hlive _ (hle.subset List.mem_cons_self))
    unique := fun a k name hname hunique => by
      obtain ⟨b, m, hb⟩ | hmem := h.unique a k name (hheld a k hname) hunique
      · exact .inl ⟨b, m, by cases b <;> exact hb⟩
      · exact absurd hunique (hnames name hmem) }

/-- The names that were held in reserve have been given to a network. -/
def start (w : World) : World :=
  { w with reserved := false }

theorem start_extends (w : World) : w.Extends w.start :=
  { World.Extends.refl w with }

theorem start_holds (w : World) (a : Holder) (k : Tier) : w.start.holds a k ⊆ w.holds a k := by
  cases a with
  | reserve => exact fun _ h => absurd h.1 Bool.false_ne_true
  | _ => exact fun _ h => h

theorem Sound.start (h : w.Sound begun) : w.start.Sound begun :=
  h.recount (by rintro ⟨⟩) (Nat.le_refl _) subset_rfl h.forgotten

/-- What was held in reserve is free afterwards. -/
theorem Sound.free_start (h : w.Sound begun) (hreserved : w.reserved = true) {name : String}
    (hname : name ∈ region "") (tier : Tier) : Free begun w.start tier name := by
  intro a k hheld hclash
  have hne : a ≠ .reserve := by
    rintro rfl
    exact Bool.false_ne_true hheld.1
  exact h.apart .reserve a [] k name hne.symm ⟨hreserved, rfl, hname⟩ (w.start_holds a k hheld)
    hclash.root

end Tiers

end World

end NetDesc
