import NetDesc.Proofs.Scoping.Binder
import NetDesc.Proofs.Store.Growth

namespace NetDesc

/-- Which trees are evaluated, and whether it is taken for granted that calls only pass named
    arguments that the function declares. -/
structure Scoping where
  trees : Expr → Prop
  declaredOnly : Prop

/-- A binder and the record that was made for it. -/
structure Layer where
  binder : Binder
  record : RecordId

namespace Binder

/-- What stands for a name in a record that was made for the binder inside of the record `outer`:
    members of literals see the record itself, defaults only what is around it. -/
def Fills (b : Binder) (record outer : RecordId) (name : String) (task : Task) : Prop :=
  match b with
  | literal members =>
    ∃ m ∈ members, m.name.name = name ∧ ∃ path, task = .evaluate m.value record path
  | function params _ =>
    (∃ v, task = .constant v) ∨
      ∃ d ∈ params.named, d.name.name = name ∧ ∃ path, task = .evaluate d.value outer path

/-- The record was made for the binder inside of the record `outer`. -/
structure Instance (S : Scoping) (s : Store) (b : Binder) (record outer : RecordId) : Prop where
  enclosing : (s.record record).enclosing = outer :: (s.record outer).enclosing
  filled : ∀ p ∈ (s.record record).members,
    p.2.cell < s.cells.size ∧ b.Fills record outer p.1 (s.cell p.2.cell).task
  complete : ∀ name ∈ b.names, (s.record record).contains name
  declared : S.declaredOnly → ∀ p ∈ (s.record record).members, p.1 ∈ b.names

end Binder

/-- The scope `scope` is made along binders that stand within each other in the tree: it is a
    chain of records, innermost first, with one for each of the binders and the outermost record,
    which is empty. -/
inductive Store.Nested (S : Scoping) (root : Expr) (base : Nat) (s : Store) :
    RecordId → List Layer → Prop
  | outermost {scope : RecordId} (hscope : scope < base) (hempty : s.record scope = {}) :
    Nested S root base s scope []
  | inside {scope outer : RecordId} {layers : List Layer} {b : Binder} {location : Location}
      (hscope : scope < base)
      (hoccurs : root.Occurs (layers.map (·.binder)) (.mk b.kind location))
      (hinstance : b.Instance S s scope outer) (h : Nested S root base s outer layers) :
    Nested S root base s scope (⟨b, scope⟩ :: layers)

namespace Record

variable {r : Record} {name : String}

theorem contains_iff : r.contains name ↔ ∃ m, r.find? name = some m :=
  Option.isSome_iff_exists

theorem find?_eq_none_iff : r.find? name = none ↔ ∀ p ∈ r.members, p.1 ≠ name := by
  simp [find?]

theorem mem_of_find? {m : Member} (h : r.find? name = some m) : (name, m) ∈ r.members := by
  obtain ⟨p, hp, rfl⟩ := Option.map_eq_some_iff.1 h
  have hname : p.1 = name := by simpa using Array.find?_some hp
  exact hname ▸ Array.mem_of_find?_eq_some hp

end Record

namespace Store

variable {S : Scoping} {root : Expr} {base : Nat} {s t : Store} {scope : RecordId}
  {layers : List Layer} {name : String}

namespace Nested

theorem lt (h : s.Nested S root base scope layers) : scope < base := by
  cases h <;> assumption

/-- There is one record for each binder, and the outermost one. -/
theorem chain (h : s.Nested S root base scope layers) :
    ∃ outermost, scope :: (s.record scope).enclosing = layers.map (·.record) ++ [outermost] := by
  induction h with
  | outermost _ hempty => exact ⟨_, by rw [hempty]; rfl⟩
  | inside _ _ hinstance _ ih =>
    obtain ⟨outermost, heq⟩ := ih
    exact ⟨outermost, by rw [hinstance.enclosing, heq]; rfl⟩

/-- The name is found if one of the binders declares it. -/
theorem find?_isSome (h : s.Nested S root base scope layers)
    (hname : ∃ layer ∈ layers, name ∈ layer.binder.names) :
    ∃ found, s.find? scope name = some found := by
  have hinstance : ∀ layer ∈ layers, ∀ name ∈ layer.binder.names,
      (s.record layer.record).contains name := by
    clear hname
    induction h with
    | outermost => simp
    | inside _ _ hinstance _ ih =>
      rw [List.forall_mem_cons]
      exact ⟨hinstance.complete, ih⟩
  obtain ⟨layer, hlayer, hdeclares⟩ := hname
  obtain ⟨outermost, hchain⟩ := h.chain
  obtain ⟨m, hm⟩ := Record.contains_iff.1 (hinstance layer hlayer name hdeclares)
  rw [find?, hchain, ← Option.isSome_iff_exists, List.findSome?_isSome_iff]
  exact ⟨layer.record, List.mem_append_left _ (List.mem_map_of_mem hlayer), by rw [hm]; rfl⟩

/-- Where only declared arguments are passed, the name is found in the record of the nearest binder
    that declares it. -/
theorem find?_nearest (h : s.Nested S root base scope layers) (hdeclared : S.declaredOnly)
    {layer : Layer} (hlayer : layers.find? (name ∈ ·.binder.names) = some layer) :
    ∃ found outer, s.find? scope name = some found ∧
      (s.record layer.record).find? name = some found ∧ found.cell < s.cells.size ∧
      layer.binder.Instance S s layer.record outer ∧
      layer.binder.Fills layer.record outer name (s.cell found.cell).task := by
  induction h with
  | outermost => cases hlayer
  | @inside scope outer layers b location _ _ hinstance _ ih =>
    rw [List.find?_cons] at hlayer
    split at hlayer
    · next hname =>
      cases hlayer
      obtain ⟨m, hm⟩ := Record.contains_iff.1 (hinstance.complete name (by simpa using hname))
      obtain ⟨hcell, hfills⟩ := hinstance.filled _ (Record.mem_of_find? hm)
      refine ⟨m, outer, ?_, hm, hcell, hinstance, hfills⟩
      rw [find?, List.findSome?_cons, hm]
    · next hname =>
      obtain ⟨found, outer', hfind, hrest⟩ := ih hlayer
      refine ⟨found, outer', ?_, hrest⟩
      have hnone : (s.record scope).find? name = none := by
        refine Record.find?_eq_none_iff.2 fun p hp heq => ?_
        exact absurd (heq ▸ hinstance.declared hdeclared p hp) (by simpa using hname)
      rw [find?, List.findSome?_cons, hnone, hinstance.enclosing]
      exact hfind

end Nested

end Store

section Placed

variable (S : Scoping) (base : Nat) (s : Store)

/-- The expression is evaluated in a scope that is made along the binders around it. -/
def Expr.Placed (e : Expr) (scope : RecordId) : Prop :=
  ∃ root layers, S.trees root ∧ root.Occurs (layers.map (·.binder)) e ∧
    s.Nested S root base scope layers

/-- The function has these parameters, and its defaults are evaluated where it was defined. -/
structure Function.Takes (f : Function) (params : ParamList) : Prop where
  positional : f.params = params.positional.map (·.name)
  named : ∀ p ∈ f.named, p.2 < s.cells.size ∧ ∃ d ∈ params.named, d.name.name = p.1 ∧
    ∃ path, (s.cell p.2).task = .evaluate d.value f.scope path
  complete : ∀ d ∈ params.named, ∃ p ∈ f.named, p.1 = d.name.name

def Function.Placed (f : Function) : Prop :=
  ∃ params location, f.Takes s params ∧
    Expr.Placed S base s (.mk (.lambda params f.body) location) f.scope

def Task.Placed : Task → Prop
  | evaluate e scope _ => e.Placed S base s scope
  | element initializer index _ _ => initializer.Placed S base s ∧ ∃ x, index.payload = .number x
  | constant _ => True

def Store.CellPlaced (c : CellId) : Prop :=
  c < s.cells.size ∧ (s.cell c).task.Placed S base s

def Store.MembersPlaced (id : RecordId) : Prop :=
  ∀ p ∈ (s.record id).members, s.CellPlaced S base p.2.cell

/-- The record may be read for its fields. -/
def Store.FieldsPlaced (id : RecordId) : Prop :=
  id < s.records.size ∧ s.MembersPlaced S base id

/-- Whatever can be seen in the record, or through it, is placed. -/
def Store.RecordPlaced (id : RecordId) : Prop :=
  ∀ r ∈ id :: (s.record id).enclosing, r < base ∧ s.MembersPlaced S base r

def Payload.Placed : Payload → Prop
  | number _ | text _ | truth _ => True
  | record id => s.RecordPlaced S base id
  | array a => ∀ c ∈ a.cells, s.CellPlaced S base c
  | function f => f.Placed S base s
  | object (.network id) => id < s.networks.size
  | object _ => True

def Value.Placed (v : Value) : Prop :=
  v.payload.Placed S base s

/-- Whatever the store holds for later is placed. -/
structure Store.Settled : Prop where
  base_le : base ≤ s.records.size
  value : ∀ c v, (s.cell c).progress = .finished v → v.Placed S base s
  pendingInput : ∀ n c, (s.node n).pendingInput = some c → s.CellPlaced S base c
  network : ∀ n < s.networks.size,
    (s.network n).fields < base ∧ s.MembersPlaced S base (s.network n).fields

end Placed

/-- What a name stands for in a placed record is placed. -/
theorem Store.RecordPlaced.find? {S : Scoping} {base : Nat} {s : Store} {id : RecordId}
    (h : s.RecordPlaced S base id) {name : String} {m : Member}
    (hm : s.find? id name = some m) : s.CellPlaced S base m.cell := by
  obtain ⟨r, hr, hfind⟩ := List.exists_of_findSome?_eq_some hm
  exact (h r hr).2 _ (Record.mem_of_find? hfind)

section Later

variable {S : Scoping} {base bound : Nat} {s t : Store}

variable (hst : s.Extends base t) (hbase : base ≤ bound)

include hst

theorem Binder.Instance.later {b : Binder} {record outer : RecordId}
    (h : b.Instance S s record outer) (hrecord : record < base) (houter : outer < base) :
    b.Instance S t record outer where
  enclosing := by rw [hst.record record hrecord, hst.record outer houter, h.enclosing]
  filled p hp := by
    rw [hst.record record hrecord] at hp
    obtain ⟨hcell, hfills⟩ := h.filled p hp
    exact ⟨Nat.lt_of_lt_of_le hcell hst.covers.cells, by rwa [hst.task _ hcell]⟩
  complete := by
    rw [hst.record record hrecord]
    exact h.complete
  declared := by
    rw [hst.record record hrecord]
    exact h.declared

theorem Function.Takes.later {f : Function} {params : ParamList} (h : f.Takes s params) :
    f.Takes t params where
  positional := h.positional
  named p hp := by
    obtain ⟨hcell, d, hd, hname, path, htask⟩ := h.named p hp
    refine ⟨Nat.lt_of_lt_of_le hcell hst.covers.cells, d, hd, hname, path, ?_⟩
    rw [hst.task _ hcell, htask]
  complete := h.complete

include hbase

theorem Store.Nested.later {root : Expr} {scope : RecordId} {layers : List Layer}
    (h : s.Nested S root base scope layers) : t.Nested S root bound scope layers := by
  induction h with
  | outermost hscope hempty =>
    refine .outermost (Nat.lt_of_lt_of_le hscope hbase) ?_
    rw [hst.record _ hscope, hempty]
  | inside hscope hoccurs hinstance h ih =>
    exact .inside (Nat.lt_of_lt_of_le hscope hbase) hoccurs (hinstance.later hst hscope h.lt) ih

theorem Expr.Placed.later {e : Expr} {scope : RecordId} (h : e.Placed S base s scope) :
    e.Placed S bound t scope := by
  obtain ⟨root, layers, hroot, hoccurs, hnested⟩ := h
  exact ⟨root, layers, hroot, hoccurs, hnested.later hst hbase⟩

theorem Function.Placed.later {f : Function} (h : f.Placed S base s) : f.Placed S bound t := by
  obtain ⟨params, location, htakes, hplaced⟩ := h
  exact ⟨params, location, htakes.later hst, hplaced.later hst hbase⟩

theorem Task.Placed.later {task : Task} (h : task.Placed S base s) : task.Placed S bound t := by
  cases task with
  | evaluate e scope path => exact Expr.Placed.later hst hbase h
  | element initializer index path location => exact ⟨h.1.later hst hbase, h.2⟩
  | constant v => trivial

theorem Store.CellPlaced.later {c : CellId} (h : s.CellPlaced S base c) :
    t.CellPlaced S bound c := by
  refine ⟨Nat.lt_of_lt_of_le h.1 hst.covers.cells, ?_⟩
  rw [hst.task c h.1]
  exact h.2.later hst hbase

theorem Store.MembersPlaced.later {id : RecordId} (h : s.MembersPlaced S base id)
    (hid : id < base) : t.MembersPlaced S bound id := by
  intro p hp
  rw [hst.record id hid] at hp
  exact (h p hp).later hst hbase

theorem Store.RecordPlaced.later {id : RecordId} (h : s.RecordPlaced S base id) :
    t.RecordPlaced S bound id := by
  have hid : id < base := (h id List.mem_cons_self).1
  intro r hr
  rw [hst.record id hid] at hr
  obtain ⟨hlt, hmembers⟩ := h r hr
  exact ⟨Nat.lt_of_lt_of_le hlt hbase, hmembers.later hst hbase hlt⟩

theorem Value.Placed.later {v : Value} (h : v.Placed S base s) : v.Placed S bound t := by
  obtain ⟨payload, location, path⟩ := v
  rcases payload with _ | _ | _ | id | a | f | (_ | id | _)
  case record => exact Store.RecordPlaced.later hst hbase h
  case array => exact fun c hc => Store.CellPlaced.later hst hbase (h c hc)
  case function => exact Function.Placed.later hst hbase h
  case object.network => exact Nat.lt_of_lt_of_le h hst.covers.networks
  all_goals trivial

end Later

/-- All records are sealed by a call. -/
theorem Store.FieldsPlaced.sealed {S : Scoping} {base : Nat} {s t : Store} {id : RecordId}
    (h : s.FieldsPlaced S base id) (hbase : base ≤ s.records.size)
    (hst : s.Extends s.records.size t) : t.FieldsPlaced S t.records.size id := by
  refine ⟨Nat.lt_of_lt_of_le h.1 hst.covers.records, fun p hp => ?_⟩
  rw [hst.record id h.1] at hp
  exact (h.2 p hp).later (hst.weaken hbase) (Nat.le_trans hbase hst.covers.records)

section Parts

variable {S : Scoping} {base : Nat} {s : Store}

theorem ExprKind.kind_of_mem_parts {kind : ExprKind} {b : Binder} {part : Expr}
    (h : (some b, part) ∈ kind.parts) : b.kind = kind := by
  cases kind <;> simp only [parts, List.mem_cons, List.mem_append, List.mem_map, Prod.mk.injEq,
    List.not_mem_nil, reduceCtorEq, false_and, and_false, exists_false, or_false,
    List.cons_append, Option.some.injEq] at h
  case lambda params body => rw [h.1]; rfl
  case record members =>
    obtain ⟨m, -, rfl, -⟩ := h
    rfl

/-- Parts that nothing is bound in are evaluated in the same scope. -/
theorem Expr.Placed.part {e part : Expr} {scope : RecordId} (h : e.Placed S base s scope)
    (hpart : (none, part) ∈ e.kind.parts) : part.Placed S base s scope := by
  obtain ⟨root, layers, hroot, hoccurs, hnested⟩ := h
  exact ⟨root, layers, hroot, hoccurs.part hpart, hnested⟩

/-- Parts that something is bound in are evaluated in a record that was made for the binder. -/
theorem Expr.Placed.inside {e part : Expr} {scope outer : RecordId} {b : Binder}
    (h : e.Placed S base s outer) (hpart : (some b, part) ∈ e.kind.parts) (hscope : scope < base)
    (hinstance : b.Instance S s scope outer) : part.Placed S base s scope := by
  obtain ⟨root, layers, hroot, hoccurs, hnested⟩ := h
  refine ⟨root, ⟨b, scope⟩ :: layers, hroot, hoccurs.part hpart, ?_⟩
  obtain ⟨kind, location⟩ := e
  obtain rfl : b.kind = kind := ExprKind.kind_of_mem_parts hpart
  exact .inside hscope hoccurs hinstance hnested

/-- What a record shows that was made along binders is placed. -/
theorem Store.Nested.recordPlaced {root : Expr} {scope : RecordId} {layers : List Layer}
    (hroot : S.trees root) (h : s.Nested S root base scope layers) :
    s.RecordPlaced S base scope := by
  induction h with
  | outermost hscope hempty =>
    rw [RecordPlaced, hempty]
    intro r hr
    obtain rfl : r = _ := by simpa using hr
    exact ⟨hscope, by simp [MembersPlaced, hempty]⟩
  | @inside scope outer layers b location hscope hoccurs hinstance hnested ih =>
    rw [RecordPlaced, hinstance.enclosing, List.forall_mem_cons]
    refine ⟨⟨hscope, fun p hp => ?_⟩, ih⟩
    obtain ⟨hcell, hfills⟩ := hinstance.filled p hp
    have houter : Expr.Placed S base s (.mk b.kind location) outer :=
      ⟨root, layers, hroot, hoccurs, hnested⟩
    refine ⟨hcell, ?_⟩
    cases b with
    | literal members =>
      obtain ⟨m, hm, -, path, htask⟩ := hfills
      rw [htask]
      exact houter.inside (List.mem_map_of_mem hm) hscope hinstance
    | function params body =>
      obtain ⟨v, htask⟩ | ⟨d, hd, -, path, htask⟩ := hfills
      · rw [htask]
        trivial
      · rw [htask]
        exact houter.part (List.mem_cons_of_mem _ (List.mem_map_of_mem hd))

end Parts

end NetDesc
