import NetDesc.Store.Access

namespace NetDesc

namespace Record

theorem contains_iff_mem_names {r : Record} {name : String} :
    r.contains name ↔ name ∈ r.names := by
  simp [contains, find?, names]

theorem find?_eq_none_of_not_mem {r : Record} {name : String} (h : name ∉ r.names) :
    r.find? name = none := by
  simpa [contains_iff_mem_names, contains] using mt contains_iff_mem_names.1 h

section Add

variable (r : Record) (name : String) (m : Member)

@[simp]
theorem add_enclosing : (r.add name m).enclosing = r.enclosing := by
  unfold add
  split <;> rfl

variable {r name} in
theorem add_of_not_mem (h : name ∉ r.names) :
    r.add name m = { r with members := r.members.push (name, m) } :=
  if_neg (mt contains_iff_mem_names.1 h)

variable {r name m} in
/-- What is in the record afterwards is the new member or has been there under another name. -/
theorem mem_add {p : String × Member} (hp : p ∈ (r.add name m).members) :
    p = (name, m) ∨ p ∈ r.members ∧ p.1 ≠ name := by
  by_cases h : name ∈ r.names
  · rw [add, if_pos (contains_iff_mem_names.2 h)] at hp
    obtain ⟨q, hq, rfl⟩ := Array.mem_map.1 hp
    split
    · exact .inl rfl
    · next hne => exact .inr ⟨hq, hne⟩
  · rw [add_of_not_mem m h] at hp
    obtain hold | hnew := Array.mem_push.1 hp
    · exact .inr ⟨hold, fun heq => h (heq ▸ List.mem_map_of_mem (Array.mem_toList_iff.2 hold))⟩
    · exact .inl hnew

/-- The member is found under its name, and whatever else was found still is. -/
theorem find?_add (other : String) :
    (r.add name m).find? other = if name = other then some m else r.find? other := by
  by_cases h : name ∈ r.names
  · have hsame (p : String × Member) : (if p.1 = name then (name, m) else p).1 = p.1 := by
      split
      · next heq => exact heq.symm
      · rfl
    rw [add, if_pos (contains_iff_mem_names.2 h), find?, find?, Array.find?_map]
    simp only [Function.comp_def, hsame, Option.map_map]
    split
    · next heq =>
      subst heq
      obtain ⟨p, hp⟩ := Option.isSome_iff_exists.1 (contains_iff_mem_names.2 h)
      obtain ⟨q, hq, -⟩ := Option.map_eq_some_iff.1 hp
      have hname : q.1 = name := by simpa using Array.find?_some hq
      simp [hq, hname]
    · next hne =>
      refine Option.map_congr fun q hq => ?_
      have hname : q.1 = other := by simpa using Array.find?_some hq
      rw [if_neg fun heq => hne (heq.symm.trans hname)]
  · rw [add_of_not_mem m h, find?, find?, Array.find?_push]
    by_cases hother : name = other
    · subst hother
      have hnone := find?_eq_none_of_not_mem h
      rw [find?, Option.map_eq_none_iff] at hnone
      simp [hnone]
    · simp [hother]

@[simp]
theorem mem_names_add (other : String) :
    other ∈ (r.add name m).names ↔ other ∈ r.names ∨ other = name := by
  rw [← contains_iff_mem_names, ← contains_iff_mem_names, contains, contains, find?_add]
  split
  · next h => simp [h]
  · next h => simp [Ne.symm h]

end Add

end Record

theorem LazyArray.mem_of_cellAt? {a : LazyArray} {index : Int64} {c : CellId}
    (h : a.cellAt? index = some c) : c ∈ a.cells := by
  unfold cellAt? at h
  split at h
  · split at h
    · exact Array.mem_of_getElem? h
    · cases h
  · cases h

/-- To change the entry that has just been added is to add it as changed. -/
theorem push_modify_size {α : Type} (xs : Array α) (x : α) (f : α → α) :
    (xs.push x).modify xs.size f = xs.push (f x) := by
  apply Array.ext
  · simp
  · intro i hi hi'
    rw [Array.getElem_modify, Array.getElem_push, Array.getElem_push]
    by_cases heq : xs.size = i
    · subst heq
      simp
    · have hlt : i < xs.size := by
        rw [Array.size_push] at hi'
        omega
      simp [heq, hlt]

namespace Store

@[simp]
theorem cell_push (s : Store) (c : Cell) (id : CellId) :
    { s with cells := s.cells.push c }.cell id = if id = s.cells.size then c else s.cell id := by
  simp only [cell, Array.getD_eq_getD_getElem?, Array.getElem?_push]
  split <;> simp

@[simp]
theorem record_push (s : Store) (r : Record) (id : RecordId) :
    { s with records := s.records.push r }.record id =
      if id = s.records.size then r else s.record id := by
  simp only [record, Array.getD_eq_getD_getElem?, Array.getElem?_push]
  split <;> simp

@[simp]
theorem node_push (s : Store) (n : Node) (id : NodeId) :
    { s with nodes := s.nodes.push n }.node id = if id = s.nodes.size then n else s.node id := by
  simp only [node, Array.getD_eq_getD_getElem?, Array.getElem?_push]
  split <;> simp

@[simp]
theorem network_push (s : Store) (n : Network) (id : NetworkId) :
    { s with networks := s.networks.push n }.network id =
      if id = s.networks.size then n else s.network id := by
  simp only [network, Array.getD_eq_getD_getElem?, Array.getElem?_push]
  split <;> simp

theorem record_modify (s : Store) (f : Record → Record) (changed id : RecordId) :
    { s with records := s.records.modify changed f }.record id =
      if changed = id ∧ id < s.records.size then f (s.record id) else s.record id := by
  simp only [record, Array.getD_eq_getD_getElem?, Array.getElem?_modify]
  by_cases hid : id < s.records.size <;> by_cases heq : changed = id <;> simp [hid, heq]

theorem node_modify (s : Store) (f : Node → Node) (changed id : NodeId) :
    { s with nodes := s.nodes.modify changed f }.node id =
      if changed = id ∧ id < s.nodes.size then f (s.node id) else s.node id := by
  simp only [node, Array.getD_eq_getD_getElem?, Array.getElem?_modify]
  by_cases hid : id < s.nodes.size <;> by_cases heq : changed = id <;> simp [hid, heq]

theorem setProgress_cell (s : Store) (changed id : CellId) (p : Progress) :
    (s.setProgress changed p).cell id =
      if changed = id ∧ id < s.cells.size then { s.cell id with progress := p } else s.cell id := by
  simp only [setProgress, cell, Array.getD_eq_getD_getElem?, Array.getElem?_modify]
  by_cases hid : id < s.cells.size <;> by_cases heq : changed = id <;> simp [hid, heq]

theorem setProgress_cell_self {s : Store} {id : CellId} (h : id < s.cells.size) (p : Progress) :
    (s.setProgress id p).cell id = { s.cell id with progress := p } := by
  rw [setProgress_cell, if_pos ⟨rfl, h⟩]

theorem setProgress_cell_of_ne {changed id : CellId} (h : changed ≠ id) (s : Store)
    (p : Progress) : (s.setProgress changed p).cell id = s.cell id := by
  rw [setProgress_cell, if_neg (not_and_of_not_left _ h)]

@[simp]
theorem setProgress_cells_size (s : Store) (id : CellId) (p : Progress) :
    (s.setProgress id p).cells.size = s.cells.size := by
  simp [setProgress]

@[simp]
theorem setProgress_record (s : Store) (id : CellId) (p : Progress) (r : RecordId) :
    (s.setProgress id p).record r = s.record r := rfl

@[simp]
theorem setProgress_node (s : Store) (id : CellId) (p : Progress) (n : NodeId) :
    (s.setProgress id p).node n = s.node n := rfl

@[simp]
theorem setProgress_network (s : Store) (id : CellId) (p : Progress) (n : NetworkId) :
    (s.setProgress id p).network n = s.network n := rfl

/-- Cells that were never made hold a value, so nothing computes them. -/
theorem cell_of_size_le {s : Store} {id : CellId} (hid : s.cells.size ≤ id) :
    s.cell id = default := by
  simp [cell, hid]

/-- Every table of the first store is at most as long as that of the second, so a reference that
    is good stays so. -/
structure Covers (s t : Store) : Prop where
  cells : s.cells.size ≤ t.cells.size
  records : s.records.size ≤ t.records.size
  nodes : s.nodes.size ≤ t.nodes.size
  networks : s.networks.size ≤ t.networks.size
  actions : s.actions.size ≤ t.actions.size

theorem Covers.refl (s : Store) : s.Covers s := by
  constructor <;> exact Nat.le_refl _

theorem Covers.trans {s t u : Store} (hst : s.Covers t) (htu : t.Covers u) : s.Covers u :=
  ⟨Nat.le_trans hst.cells htu.cells, Nat.le_trans hst.records htu.records,
    Nat.le_trans hst.nodes htu.nodes, Nat.le_trans hst.networks htu.networks,
    Nat.le_trans hst.actions htu.actions⟩

end Store

def Object.Valid (s : Store) : Object → Prop
  | .node id => id < s.nodes.size
  | .network id => id < s.networks.size
  | .action id => id < s.actions.size

structure Function.Valid (s : Store) (f : Function) : Prop where
  scope : f.scope < s.records.size
  named : ∀ p ∈ f.named, p.2 < s.cells.size

def Payload.Valid (s : Store) : Payload → Prop
  | .number _ | .text _ | .truth _ => True
  | .record id => id < s.records.size
  | .array a => ∀ c ∈ a.cells, c < s.cells.size
  | .function f => f.Valid s
  | .object o => o.Valid s

def Value.Valid (s : Store) (v : Value) : Prop :=
  v.payload.Valid s

def Task.Valid (s : Store) : Task → Prop
  | .evaluate _ scope _ => scope < s.records.size
  | .element initializer index _ _ => initializer.Valid s ∧ index.Valid s
  | .constant v => v.Valid s

/-- A cell whose value is known from the start has that value, too. -/
structure Cell.Valid (s : Store) (c : Cell) : Prop where
  task : c.task.Valid s
  value : ∀ v, c.progress = .finished v → v.Valid s
  constant : ∀ v, c.task = .constant v → c.progress = .finished v

structure Record.Valid (s : Store) (r : Record) : Prop where
  members : ∀ p ∈ r.members, p.2.cell < s.cells.size
  enclosing : ∀ id ∈ r.enclosing, id < s.records.size

theorem Record.Valid.find? {s : Store} {r : Record} (hr : r.Valid s) {name : String} {m : Member}
    (hm : r.find? name = some m) : m.cell < s.cells.size := by
  obtain ⟨p, hp, rfl⟩ := Option.map_eq_some_iff.1 hm
  exact hr.members p (Array.mem_of_find?_eq_some hp)

/-- How many inputs a node has: those that its operation takes, and one for a delay once it is
    tied. The factor of a scale node is no input. -/
def Node.arity (n : Node) : Nat :=
  match n.operation with
  | .scale => 1
  | .delay => if n.isFinalized then 1 else 0
  | op => op.inputCount?.getD 0

structure Node.Valid (s : Store) (n : Node) : Prop where
  inputs : ∀ input ∈ n.inputs, input < s.nodes.size
  pendingInput : ∀ c, n.pendingInput = some c → c < s.cells.size
  /-- Only delays wait for their input. -/
  delay : ∀ c, n.pendingInput = some c → n.operation = .delay
  arity : n.inputs.length = n.arity

section Monotone

variable {s t : Store} (hst : s.Covers t)

include hst

theorem Object.Valid.mono {o : Object} (ho : o.Valid s) : o.Valid t := by
  cases o with
  | node id => exact Nat.lt_of_lt_of_le ho hst.nodes
  | network id => exact Nat.lt_of_lt_of_le ho hst.networks
  | action id => exact Nat.lt_of_lt_of_le ho hst.actions

theorem Function.Valid.mono {f : Function} (hf : f.Valid s) : f.Valid t where
  scope := Nat.lt_of_lt_of_le hf.scope hst.records
  named p hp := Nat.lt_of_lt_of_le (hf.named p hp) hst.cells

theorem Payload.Valid.mono {p : Payload} (hp : p.Valid s) : p.Valid t := by
  cases p with
  | number x => trivial
  | text x => trivial
  | truth x => trivial
  | record id => exact Nat.lt_of_lt_of_le hp hst.records
  | array a => exact fun c hc => Nat.lt_of_lt_of_le (hp c hc) hst.cells
  | function f => exact Function.Valid.mono hst hp
  | object o => exact Object.Valid.mono hst hp

theorem Value.Valid.mono {v : Value} (hv : v.Valid s) : v.Valid t :=
  Payload.Valid.mono hst hv

theorem Task.Valid.mono {task : Task} (htask : task.Valid s) : task.Valid t := by
  cases task with
  | evaluate e scope path => exact Nat.lt_of_lt_of_le htask hst.records
  | element initializer index path location =>
    exact ⟨htask.1.mono hst, htask.2.mono hst⟩
  | constant v => exact Value.Valid.mono hst htask

theorem Cell.Valid.mono {c : Cell} (hc : c.Valid s) : c.Valid t where
  task := hc.task.mono hst
  value v hv := (hc.value v hv).mono hst
  constant := hc.constant

theorem Record.Valid.mono {r : Record} (hr : r.Valid s) : r.Valid t where
  members p hp := Nat.lt_of_lt_of_le (hr.members p hp) hst.cells
  enclosing id hid := Nat.lt_of_lt_of_le (hr.enclosing id hid) hst.records

theorem Node.Valid.mono {n : Node} (hn : n.Valid s) : n.Valid t where
  inputs input hinput := Nat.lt_of_lt_of_le (hn.inputs input hinput) hst.nodes
  pendingInput c hc := Nat.lt_of_lt_of_le (hn.pendingInput c hc) hst.cells
  delay := hn.delay
  arity := hn.arity

end Monotone

/-- A cell that has not been accessed yet is as good as its computation. -/
theorem Cell.suspended_valid {s : Store} {task : Task} (location : Location) (path : String)
    (htask : task.Valid s) (hconstant : ∀ v, task ≠ .constant v) :
    (Cell.suspended task location path).Valid s where
  task := htask
  value v hv := by cases hv
  constant v hv := absurd hv (hconstant v)

theorem Cell.ready_valid {s : Store} {v : Value} (hv : v.Valid s) : (Cell.ready v).Valid s where
  task := hv
  value w hw := by cases hw; exact hv
  constant w hw := by cases hw; rfl

/-- A new cell waits to be computed, or it holds the value that is its computation. -/
def Cell.Fresh (c : Cell) : Prop :=
  c.progress = .pending ∨ ∃ v, c.task = .constant v ∧ c.progress = .finished v

theorem Cell.suspended_fresh (task : Task) (location : Location) (path : String) :
    (Cell.suspended task location path).Fresh :=
  .inl rfl

theorem Cell.ready_fresh (v : Value) : (Cell.ready v).Fresh :=
  .inr ⟨v, rfl, rfl⟩

theorem Cell.Fresh.not_running {c : Cell} (hc : c.Fresh) : c.progress ≠ .running := by
  rcases hc with h | ⟨v, -, h⟩ <;> rw [h] <;> rintro ⟨⟩

namespace Value

variable {s : Store} {v : Value}

theorem asRecord_valid (hv : v.Valid s) {id : RecordId} (h : v.asRecord = .ok id) :
    id < s.records.size := by
  unfold asRecord at h
  split at h
  · next hpayload =>
    cases h
    simpa [Value.Valid, hpayload, Payload.Valid] using hv
  · cases h

theorem asArray_valid (hv : v.Valid s) {a : LazyArray} (h : v.asArray = .ok a) :
    ∀ c ∈ a.cells, c < s.cells.size := by
  unfold asArray at h
  split at h
  · next hpayload =>
    cases h
    simpa [Value.Valid, hpayload, Payload.Valid] using hv
  · cases h

theorem asFunction_valid (hv : v.Valid s) {f : Function} (h : v.asFunction = .ok f) :
    f.Valid s := by
  unfold asFunction at h
  split at h
  · next hpayload =>
    cases h
    simpa [Value.Valid, hpayload, Payload.Valid] using hv
  · cases h

theorem asNode_valid (hv : v.Valid s) {id : NodeId} (h : v.asNode = .ok id) :
    id < s.nodes.size := by
  unfold asNode at h
  split at h
  · next hpayload =>
    cases h
    simpa [Value.Valid, hpayload, Payload.Valid, Object.Valid] using hv
  · cases h

end Value

end NetDesc
