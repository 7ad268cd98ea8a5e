import NetDesc.Proofs.Network.Sound

namespace NetDesc

namespace Store

/-- Everything that a store holds refers to what is there. The records below `base` are sealed,
    and networks are made from sealed records. -/
structure WellFormed (base : Nat) (s : Store) : Prop where
  base_le : base ≤ s.records.size
  cell : ∀ c < s.cells.size, (s.cell c).Valid s
  record : ∀ r < s.records.size, (s.record r).Valid s
  node : ∀ n < s.nodes.size, (s.node n).Valid s
  network : ∀ n < s.networks.size, (s.network n).fields < base ∧ (s.network n).Sound s

variable {base bound : Nat} {s t : Store}

theorem wellFormed_empty : ({} : Store).WellFormed 0 where
  base_le := Nat.le_refl 0
  cell c hc := absurd hc (Nat.not_lt_zero c)
  record r hr := absurd hr (Nat.not_lt_zero r)
  node n hn := absurd hn (Nat.not_lt_zero n)
  network n hn := absurd hn (Nat.not_lt_zero n)

/-- A store stays well-formed if whatever it gains or changes is good. -/
theorem WellFormed.extend (hs : s.WellFormed base) (hst : s.Extends base t)
    (hcell : ∀ c < t.cells.size, (c < s.cells.size ∧ t.cell c = s.cell c) ∨ (t.cell c).Valid t)
    (hrecord : ∀ r < t.records.size,
      (r < s.records.size ∧ t.record r = s.record r) ∨ (t.record r).Valid t)
    (hnode : ∀ n < t.nodes.size, (n < s.nodes.size ∧ t.node n = s.node n) ∨ (t.node n).Valid t)
    (hnetwork : ∀ n < t.networks.size,
      n < s.networks.size ∨ ((t.network n).fields < base ∧ (t.network n).Sound t)) :
    t.WellFormed base where
  base_le := Nat.le_trans hs.base_le hst.covers.records
  cell c hc := by
    rcases hcell c hc with ⟨hold, heq⟩ | hnew
    · rw [heq]
      exact (hs.cell c hold).mono hst.covers
    · exact hnew
  record r hr := by
    rcases hrecord r hr with ⟨hold, heq⟩ | hnew
    · rw [heq]
      exact (hs.record r hold).mono hst.covers
    · exact hnew
  node n hn := by
    rcases hnode n hn with ⟨hold, heq⟩ | hnew
    · rw [heq]
      exact (hs.node n hold).mono hst.covers
    · exact hnew
  network n hn := by
    rcases hnetwork n hn with hold | hnew
    · rw [hst.network n hold]
      obtain ⟨hfields, hsound⟩ := hs.network n hold
      have hsealed := hs.record _ (Nat.lt_of_lt_of_le hfields hs.base_le)
      exact ⟨hfields, hsound.mono hst hfields hsealed⟩
    · exact hnew

theorem WellFormed.withRecords (hs : s.WellFormed base) {records : Array Record}
    (hst : s.Extends base { s with records })
    (hrecord : ∀ r < records.size,
      (r < s.records.size ∧ { s with records }.record r = s.record r) ∨
        ({ s with records }.record r).Valid { s with records }) :
    { s with records }.WellFormed base :=
  hs.extend hst (fun _ hc => .inl ⟨hc, rfl⟩) hrecord (fun _ hn => .inl ⟨hn, rfl⟩)
    fun _ hn => .inl hn

theorem WellFormed.withNodes (hs : s.WellFormed base) {nodes : Array Node}
    (hst : s.Extends base { s with nodes })
    (hnode : ∀ n < nodes.size, (n < s.nodes.size ∧ { s with nodes }.node n = s.node n) ∨
      ({ s with nodes }.node n).Valid { s with nodes }) : { s with nodes }.WellFormed base :=
  hs.extend hst (fun _ hc => .inl ⟨hc, rfl⟩) (fun _ hr => .inl ⟨hr, rfl⟩) hnode
    fun _ hn => .inl hn

/-- Once no record is under construction, all of them are sealed. -/
theorem WellFormed.seal (hs : s.WellFormed base) : s.WellFormed s.records.size :=
  { hs with
    base_le := Nat.le_refl _
    network := fun n hn =>
      ⟨Nat.lt_of_lt_of_le (hs.network n hn).1 hs.base_le, (hs.network n hn).2⟩ }

theorem WellFormed.record_valid (hs : s.WellFormed base) (r : RecordId) :
    (s.record r).Valid s := by
  rcases Nat.lt_or_ge r s.records.size with h | h
  · exact hs.record r h
  · have hnone : s.record r = default := by simp [Store.record, h]
    rw [hnone]
    exact ⟨fun p hp => absurd hp (Array.not_mem_empty p), fun id hid => absurd hid List.not_mem_nil⟩

theorem WellFormed.setProgress (hs : s.WellFormed base) {c : CellId} {p : Progress}
    (hc : ∀ v, (s.cell c).progress ≠ .finished v) (hp : ∀ v, p = .finished v → v.Valid s) :
    (s.setProgress c p).WellFormed base := by
  have hcovers := s.setProgress_covers c p
  refine hs.extend (s.setProgress_extends base c p hc) ?_ (fun r hr => .inl ⟨hr, rfl⟩)
    (fun n hn => .inl ⟨hn, rfl⟩) (fun n hn => .inl hn)
  intro id hid
  have hold := hs.cell id (by simpa using hid)
  right
  rw [setProgress_cell]
  split
  · next heq =>
    obtain ⟨rfl, -⟩ := heq
    refine ⟨hold.task.mono hcovers, fun v hv => (hp v hv).mono hcovers, fun v hv => ?_⟩
    exact absurd (hold.constant v hv) (hc v)
  · exact hold.mono hcovers

/-- A store stays well-formed when the computation of a cell begins. -/
theorem WellFormed.start (hs : s.WellFormed base) {c : CellId}
    (hpending : (s.cell c).progress = .pending) : (s.setProgress c .running).WellFormed base :=
  hs.setProgress (by simp [hpending]) (by rintro v ⟨⟩)

/-- The task of a cell can be performed once its computation has begun. -/
theorem WellFormed.task_valid (hs : s.WellFormed base) {c : CellId} (hc : c < s.cells.size) :
    (s.cell c).task.Valid (s.setProgress c .running) :=
  (hs.cell c hc).task.mono (s.setProgress_covers c .running)

/-- A name is found in a record that is there, among its members. -/
theorem WellFormed.find?_valid (hs : s.WellFormed base) {scope : RecordId} {name : String}
    {m : Member} (hm : s.find? scope name = some m) : m.cell < s.cells.size := by
  obtain ⟨id, -, hid⟩ := List.exists_of_findSome?_eq_some hm
  exact (hs.record_valid id).find? hid

end Store

namespace Access

/-- The steps that keep a store well-formed while the records below `base` are sealed. -/
def Allowed (base : Nat) (s : Store) : Access → Prop
  | newCell c => c.Valid s ∧ c.Fresh
  | newRecord parent => ∀ p, parent = some p → p < s.records.size
  | addMember record _ m => base ≤ record ∧ m.cell < s.cells.size
  | newNode n => n.Valid s
  | tieInput node input =>
    input < s.nodes.size ∧
      ∃ c, (s.node node).pendingInput = some c ∧ (s.cell c).progress ≠ .running
  | newNetwork n => n.fields < base ∧ n.Sound s
  | rename (.node id) _ => (s.node id).name = ""
  | _ => True

variable {base : Nat} {s : Store}

theorem newCell_grows {c : Cell} (hc : c.Fresh) : s.Grows base ((newCell c).perform s).2 := by
  have hold (id) (hid : id < s.cells.size) : ((newCell c).perform s).2.cell id = s.cell id := by
    simp [perform, Nat.ne_of_lt hid]
  refine {
    covers := by constructor <;> simp [perform]
    task := fun id hid => by rw [hold id hid]
    location := fun id hid => by rw [hold id hid]
    path := fun id hid => by rw [hold id hid]
    finished := fun id hid v hv => by rwa [hold id hid]
    record := fun r _ => rfl
    node := fun n _ => .refl (s.node n)
    network := fun n _ => rfl
    running := fun id => ?_
    waiting := fun n _ k hk _ => hk }
  simp only [perform, Store.cell_push]
  split
  · next h =>
    rw [h, Store.cell_of_size_le (Nat.le_refl _)]
    exact iff_of_false hc.not_running (by intro h; cases h)
  · exact Iff.rfl

theorem newRecord_grows (hbase : base ≤ s.records.size) (parent : Option RecordId) :
    s.Grows base ((newRecord parent).perform s).2 := by
  refine { Store.Grows.refl base s with
    covers := by constructor <;> simp [perform]
    record := fun r hr => ?_ }
  have hne : r ≠ s.records.size := Nat.ne_of_lt (Nat.lt_of_lt_of_le hr hbase)
  simp [perform, hne]

theorem addMember_grows {record : RecordId} (hrecord : base ≤ record) (name : String)
    (m : Member) : s.Grows base ((addMember record name m).perform s).2 := by
  refine { Store.Grows.refl base s with
    covers := by constructor <;> simp [perform]
    record := fun r hr => ?_ }
  have hne : record ≠ r := (Nat.ne_of_lt (Nat.lt_of_lt_of_le hr hrecord)).symm
  simp [perform, Store.record_modify, hne]

theorem newNode_grows (n : Node) : s.Grows base ((newNode n).perform s).2 := by
  have hold (id) (hid : id < s.nodes.size) : ((newNode n).perform s).2.node id = s.node id := by
    simp [perform, Nat.ne_of_lt hid]
  exact { Store.Grows.refl base s with
    covers := by constructor <;> simp [perform]
    node := fun id hid => by rw [hold id hid]; exact .refl _
    waiting := fun id hid k hk _ => by rwa [hold id hid] }

/-- A node is tied when what it waits for has been computed. -/
theorem tieInput_grows {node input : NodeId} {c : CellId}
    (hc : (s.node node).pendingInput = some c) (hrun : (s.cell c).progress ≠ .running) :
    s.Grows base ((tieInput node input).perform s).2 := by
  refine { Store.Grows.refl base s with
    covers := by constructor <;> simp [perform]
    node := fun id hid => ?_
    waiting := fun id hid k hk hkrun => ?_ }
  · simp only [perform, Store.node_modify]
    split
    · next h =>
      obtain ⟨rfl, -⟩ := h
      exact ⟨rfl, rfl, rfl, fun _ => rfl, fun hnone => by simp [hnone] at hc⟩
    · exact .refl _
  · have hne : node ≠ id := by
      rintro rfl
      rw [hc] at hk
      cases hk
      exact hrun hkrun
    simpa [perform, Store.node_modify, hne] using hk

theorem rename_node_grows {id : NodeId} (hid : (s.node id).name = "") (name : String) :
    s.Grows base ((rename (.node id) name).perform s).2 := by
  refine { Store.Grows.refl base s with
    covers := by constructor <;> simp [perform]
    node := fun k _ => ?_
    waiting := fun k _ c hc _ => ?_ }
  · simp only [perform, Store.node_modify]
    split
    · next h =>
      obtain ⟨rfl, -⟩ := h
      exact ⟨rfl, rfl, rfl, fun hne => absurd hid hne, fun hnone => ⟨hnone, rfl⟩⟩
    · exact .refl _
  · simp only [perform, Store.node_modify]
    split <;> exact hc

/-- An allowed step only makes the store grow. -/
theorem Allowed.grows {a : Access} (hs : s.WellFormed base) (ha : a.Allowed base s) :
    s.Grows base (a.perform s).2 := by
  cases a with
  | newCell c => exact newCell_grows ha.2
  | newRecord parent => exact newRecord_grows hs.base_le parent
  | addMember record name m => exact addMember_grows ha.1 name m
  | newNode n => exact newNode_grows n
  | tieInput node input =>
    obtain ⟨-, c, hc, hrun⟩ := ha
    exact tieInput_grows hc hrun
  | newNetwork n =>
    exact { Store.Grows.refl base s with
      covers := by constructor <;> simp [perform]
      network := fun id hid => by simp [perform, Nat.ne_of_lt hid] }
  | newAction a =>
    exact { Store.Grows.refl base s with covers := by constructor <;> simp [perform] }
  | rename o name =>
    cases o with
    | node id => exact rename_node_grows ha name
    | action id =>
      exact { Store.Grows.refl base s with covers := by constructor <;> simp [perform] }
    | network id => exact .refl base s
  | print line => exact { Store.Grows.refl base s with covers := by constructor <;> simp [perform] }
  | _ => exact .refl base s

section WellFormed

variable (hs : s.WellFormed base)

include hs

theorem newCell_wellFormed {c : Cell} (ha : (newCell c).Allowed base s) :
    ((newCell c).perform s).2.WellFormed base := by
  have hgrows := ha.grows hs
  refine hs.extend hgrows.toExtends (fun id hid => ?_) (fun r hr => .inl ⟨hr, rfl⟩)
    (fun n hn => .inl ⟨hn, rfl⟩) (fun n hn => .inl hn)
  by_cases hnew : id = s.cells.size
  · right
    simpa [perform, hnew] using ha.1.mono hgrows.covers
  · left
    simp [perform] at hid
    exact ⟨by omega, by simp [perform, hnew]⟩

theorem newRecord_wellFormed {parent : Option RecordId} (ha : (newRecord parent).Allowed base s) :
    ((newRecord parent).perform s).2.WellFormed base := by
  have hgrows := ha.grows hs
  refine hs.withRecords hgrows.toExtends fun r hr => ?_
  by_cases hnew : r = s.records.size
  · right
    simp only [Store.record_push, if_pos hnew]
    refine ⟨fun p hp => absurd hp (Array.not_mem_empty p), fun id hid => ?_⟩
    cases parent with
    | none => cases hid
    | some parent =>
      have hparent : parent < s.records.size := ha parent rfl
      rcases List.mem_cons.1 hid with rfl | hid
      · exact Nat.lt_of_lt_of_le hparent hgrows.covers.records
      · exact Nat.lt_of_lt_of_le ((hs.record parent hparent).enclosing id hid)
          hgrows.covers.records
  · left
    simp at hr
    exact ⟨by omega, by simp [hnew]⟩

theorem addMember_wellFormed {record : RecordId} {name : String} {m : Member}
    (ha : (addMember record name m).Allowed base s) :
    ((addMember record name m).perform s).2.WellFormed base := by
  have hgrows := ha.grows hs
  refine hs.withRecords hgrows.toExtends fun r hr => ?_
  have hin : r < s.records.size := by simpa using hr
  simp only [Store.record_modify]
  split
  · right
    have hold := (hs.record r hin).mono hgrows.covers
    refine ⟨fun p hp => ?_, (Record.add_enclosing ..).symm ▸ hold.enclosing⟩
    obtain rfl | ⟨hp, -⟩ := Record.mem_add hp
    · exact ha.2
    · exact hold.members p hp
  · exact .inl ⟨hin, rfl⟩

theorem newNode_wellFormed {n : Node} (ha : (newNode n).Allowed base s) :
    ((newNode n).perform s).2.WellFormed base := by
  have hgrows := ha.grows hs
  refine hs.withNodes hgrows.toExtends fun id hid => ?_
  by_cases hnew : id = s.nodes.size
  · right
    simpa [perform, hnew] using Node.Valid.mono hgrows.covers ha
  · left
    simp at hid
    exact ⟨by omega, by simp [hnew]⟩

/-- A node that waits for its input has none yet, so it gets the only one. -/
theorem tieInput_wellFormed {node input : NodeId} (ha : (tieInput node input).Allowed base s) :
    ((tieInput node input).perform s).2.WellFormed base := by
  have hgrows := ha.grows hs
  obtain ⟨hinput, c, hc, -⟩ := ha
  refine hs.withNodes hgrows.toExtends fun id hid => ?_
  have hin : id < s.nodes.size := by simpa using hid
  simp only [Store.node_modify]
  split
  · next h =>
    obtain ⟨rfl, -⟩ := h
    right
    have hold := hs.node node hin
    have hdelay := hold.delay c hc
    have hnone : (s.node node).inputs.length = 0 := by
      simp [hold.arity, Node.arity, hdelay, Node.isFinalized, hc]
    refine ⟨fun k hk => ?_, by simp, by simp, ?_⟩
    · rw [List.length_eq_zero_iff.1 hnone] at hk
      rw [List.mem_singleton.1 hk]
      exact Nat.lt_of_lt_of_le hinput hgrows.covers.nodes
    · simp [Node.arity, hdelay, Node.isFinalized, hnone]
  · exact .inl ⟨hin, rfl⟩

theorem newNetwork_wellFormed {n : Network} (ha : (newNetwork n).Allowed base s) :
    ((newNetwork n).perform s).2.WellFormed base := by
  have hgrows := ha.grows hs
  refine hs.extend hgrows.toExtends (fun c hc => .inl ⟨hc, rfl⟩) (fun r hr => .inl ⟨hr, rfl⟩)
    (fun n hn => .inl ⟨hn, rfl⟩) (fun id hid => ?_)
  by_cases hnew : id = s.networks.size
  · right
    have hsealed := hs.record_valid n.fields
    simpa [perform, hnew] using ⟨ha.1, ha.2.mono hgrows.toExtends ha.1 hsealed⟩
  · left
    simp [perform] at hid
    omega

theorem rename_node_wellFormed {id : NodeId} {name : String}
    (ha : (rename (.node id) name).Allowed base s) :
    ((rename (.node id) name).perform s).2.WellFormed base := by
  have hgrows := ha.grows hs
  refine hs.withNodes hgrows.toExtends fun k hk => ?_
  have hin : k < s.nodes.size := by simpa using hk
  simp only [Store.node_modify]
  split
  · right
    have hold := (hs.node k hin).mono hgrows.covers
    exact ⟨hold.inputs, hold.pendingInput, hold.delay, hold.arity⟩
  · exact .inl ⟨hin, rfl⟩

end WellFormed

/-- An allowed step keeps the store well-formed. -/
theorem Allowed.wellFormed {a : Access} (hs : s.WellFormed base) (ha : a.Allowed base s) :
    (a.perform s).2.WellFormed base := by
  have hgrows := ha.grows hs
  cases a with
  | newCell c => exact newCell_wellFormed hs ha
  | newRecord parent => exact newRecord_wellFormed hs ha
  | addMember record name m => exact addMember_wellFormed hs ha
  | newNode n => exact newNode_wellFormed hs ha
  | tieInput node input => exact tieInput_wellFormed hs ha
  | newNetwork n => exact newNetwork_wellFormed hs ha
  | rename o name =>
    cases o with
    | node id => exact rename_node_wellFormed hs ha
    | action id =>
      exact hs.extend hgrows.toExtends (fun c hc => .inl ⟨hc, rfl⟩) (fun r hr => .inl ⟨hr, rfl⟩)
        (fun n hn => .inl ⟨hn, rfl⟩) (fun n hn => .inl hn)
    | network id => exact hs
  | newAction a =>
    exact hs.extend hgrows.toExtends (fun c hc => .inl ⟨hc, rfl⟩) (fun r hr => .inl ⟨hr, rfl⟩)
      (fun n hn => .inl ⟨hn, rfl⟩) (fun n hn => .inl hn)
  | print line =>
    exact hs.extend hgrows.toExtends (fun c hc => .inl ⟨hc, rfl⟩) (fun r hr => .inl ⟨hr, rfl⟩)
      (fun n hn => .inl ⟨hn, rfl⟩) (fun n hn => .inl hn)
  | _ => exact hs

end Access

end NetDesc
