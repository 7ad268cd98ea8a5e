import NetDesc.Proofs.Store.Valid

namespace NetDesc

/-- The same function, which may be called something else. -/
structure Function.Agrees (f g : Function) : Prop where
  params : f.params = g.params
  named : f.named = g.named
  body : f.body = g.body
  scope : f.scope = g.scope

/-- Payloads agree if they are equal or functions that agree. -/
inductive Payload.Agrees : Payload → Payload → Prop
  | same (x : Payload) : Agrees x x
  | function {f g : Function} (h : f.Agrees g) : Agrees (.function f) (.function g)

/-- The same value, which may have been made under another path. -/
structure Value.Agrees (v w : Value) : Prop where
  payload : v.payload.Agrees w.payload
  location : v.location = w.location

/-- The same computation, which may be carried out under another path. -/
inductive Task.Agrees : Task → Task → Prop
  | evaluate (e : Expr) (scope : RecordId) (path path' : String) :
      Agrees (.evaluate e scope path) (.evaluate e scope path')
  | element {f g : Function} (hf : f.Agrees g) {v w : Value} (hv : v.Agrees w)
      (path path' : String) (location : Location) :
      Agrees (.element f v path location) (.element g w path' location)
  | constant {v w : Value} (h : v.Agrees w) : Agrees (.constant v) (.constant w)

/-- Computations that agree have come equally far, and their values agree. -/
inductive Progress.Agrees : Progress → Progress → Prop
  | pending : Agrees .pending .pending
  | running : Agrees .running .running
  | finished {v w : Value} (h : v.Agrees w) : Agrees (.finished v) (.finished w)

/-- The same cell, which may have another path. Its location is the same, since errors show it. -/
structure Cell.Agrees (c d : Cell) : Prop where
  task : c.task.Agrees d.task
  progress : c.progress.Agrees d.progress
  location : c.location = d.location

/-- Only what cells hold may differ, and only in paths. Values and cells carry the path they were
    defined at, and functions are called after theirs, but nothing else is made of that. -/
structure Store.Agrees (s t : Store) : Prop where
  cells : s.cells.size = t.cells.size
  cell : ∀ id, (s.cell id).Agrees (t.cell id)
  records : s.records = t.records
  nodes : s.nodes = t.nodes
  networks : s.networks = t.networks
  actions : s.actions = t.actions
  printed : s.printed = t.printed

namespace Function.Agrees

variable {f g h : Function}

theorem refl (f : Function) : f.Agrees f :=
  ⟨rfl, rfl, rfl, rfl⟩

theorem symm (hfg : f.Agrees g) : g.Agrees f :=
  ⟨hfg.params.symm, hfg.named.symm, hfg.body.symm, hfg.scope.symm⟩

theorem trans (hfg : f.Agrees g) (hgh : g.Agrees h) : f.Agrees h :=
  ⟨hfg.params.trans hgh.params, hfg.named.trans hgh.named, hfg.body.trans hgh.body,
    hfg.scope.trans hgh.scope⟩

theorem arity_eq (hfg : f.Agrees g) : f.arity = g.arity :=
  congrArg List.length hfg.params

end Function.Agrees

namespace Payload.Agrees

variable {x y z : Payload}

theorem symm (h : x.Agrees y) : y.Agrees x := by
  cases h with
  | same => exact .same x
  | function h => exact .function h.symm

theorem trans (hxy : x.Agrees y) (hyz : y.Agrees z) : x.Agrees z := by
  cases hxy with
  | same => exact hyz
  | function hfg =>
    cases hyz with
    | same => exact .function hfg
    | function hgh => exact .function (hfg.trans hgh)

end Payload.Agrees

namespace Value.Agrees

variable {v w u : Value}

theorem refl (v : Value) : v.Agrees v :=
  ⟨.same v.payload, rfl⟩

theorem symm (h : v.Agrees w) : w.Agrees v :=
  ⟨h.payload.symm, h.location.symm⟩

theorem trans (hvw : v.Agrees w) (hwu : w.Agrees u) : v.Agrees u :=
  ⟨hvw.payload.trans hwu.payload, hvw.location.trans hwu.location⟩

end Value.Agrees

namespace Task.Agrees

variable {k l m : Task}

theorem refl (k : Task) : k.Agrees k := by
  cases k with
  | evaluate e scope path => exact .evaluate e scope path path
  | element f v path location => exact .element (.refl f) (.refl v) path path location
  | constant v => exact .constant (.refl v)

theorem symm (h : k.Agrees l) : l.Agrees k := by
  cases h with
  | evaluate e scope path path' => exact .evaluate e scope path' path
  | element hf hv path path' location => exact .element hf.symm hv.symm path' path location
  | constant h => exact .constant h.symm

theorem trans (hkl : k.Agrees l) (hlm : l.Agrees m) : k.Agrees m := by
  cases hkl with
  | evaluate e scope path path' =>
    cases hlm with
    | evaluate _ _ _ path'' => exact .evaluate e scope path path''
  | element hf hv path path' location =>
    cases hlm with
    | element hf' hv' _ path'' _ =>
      exact .element (hf.trans hf') (hv.trans hv') path path'' location
  | constant h =>
    cases hlm with
    | constant h' => exact .constant (h.trans h')

end Task.Agrees

namespace Progress.Agrees

variable {p q r : Progress}

theorem refl (p : Progress) : p.Agrees p := by
  cases p with
  | pending => exact .pending
  | running => exact .running
  | finished v => exact .finished (.refl v)

theorem symm (h : p.Agrees q) : q.Agrees p := by
  cases h with
  | pending => exact .pending
  | running => exact .running
  | finished h => exact .finished h.symm

theorem trans (hpq : p.Agrees q) (hqr : q.Agrees r) : p.Agrees r := by
  cases hpq with
  | pending => exact hqr
  | running => exact hqr
  | finished h =>
    cases hqr with
    | finished h' => exact .finished (h.trans h')

end Progress.Agrees

namespace Cell.Agrees

variable {c d e : Cell}

theorem refl (c : Cell) : c.Agrees c :=
  ⟨.refl c.task, .refl c.progress, rfl⟩

theorem symm (h : c.Agrees d) : d.Agrees c :=
  ⟨h.task.symm, h.progress.symm, h.location.symm⟩

theorem trans (hcd : c.Agrees d) (hde : d.Agrees e) : c.Agrees e :=
  ⟨hcd.task.trans hde.task, hcd.progress.trans hde.progress, hcd.location.trans hde.location⟩

theorem suspended {k l : Task} (h : k.Agrees l) (location : Location) (path path' : String) :
    (Cell.suspended k location path).Agrees (.suspended l location path') :=
  ⟨h, .pending, rfl⟩

theorem ready {v w : Value} (h : v.Agrees w) : (Cell.ready v).Agrees (.ready w) :=
  ⟨.constant h, .finished h, h.location⟩

end Cell.Agrees

namespace Store.Agrees

variable {s t u : Store}

theorem refl (s : Store) : s.Agrees s :=
  ⟨rfl, fun _ => .refl _, rfl, rfl, rfl, rfl, rfl⟩

theorem symm (h : s.Agrees t) : t.Agrees s :=
  ⟨h.cells.symm, fun id => (h.cell id).symm, h.records.symm, h.nodes.symm, h.networks.symm,
    h.actions.symm, h.printed.symm⟩

theorem trans (hst : s.Agrees t) (htu : t.Agrees u) : s.Agrees u :=
  ⟨hst.cells.trans htu.cells, fun id => (hst.cell id).trans (htu.cell id),
    hst.records.trans htu.records, hst.nodes.trans htu.nodes, hst.networks.trans htu.networks,
    hst.actions.trans htu.actions, hst.printed.trans htu.printed⟩

theorem record_eq (h : s.Agrees t) (id : RecordId) : s.record id = t.record id := by
  simp only [record, h.records]

theorem network_eq (h : s.Agrees t) (id : NetworkId) : s.network id = t.network id := by
  simp only [network, h.networks]

theorem find?_eq (h : s.Agrees t) (scope : RecordId) (name : String) :
    s.find? scope name = t.find? scope name := by
  simp only [find?, h.record_eq]

/-- Agreeing cells are made at the same place. -/
theorem newCell (h : s.Agrees t) {c d : Cell} (hcd : c.Agrees d) :
    ((Access.newCell c).perform s).2.Agrees ((Access.newCell d).perform t).2 := by
  refine { h with cells := ?_, cell := fun id => ?_ }
  · simp [Access.perform, h.cells]
  · simp only [Access.perform, cell_push, h.cells]
    split
    · exact hcd
    · exact h.cell id

/-- A change of the records is the same on both sides. -/
theorem withRecords (h : s.Agrees t) (change : Array Record → Array Record) :
    { s with records := change s.records }.Agrees { t with records := change t.records } :=
  { h with records := congrArg change h.records }

theorem setProgress (h : s.Agrees t) (id : CellId) {p q : Progress} (hpq : p.Agrees q) :
    (s.setProgress id p).Agrees (t.setProgress id q) := by
  refine { h with cells := ?_, cell := fun other => ?_ }
  · simp [h.cells]
  · have hcell := h.cell other
    rw [setProgress_cell, setProgress_cell, h.cells]
    split
    · exact ⟨hcell.task, hpq, hcell.location⟩
    · exact hcell

end Store.Agrees

end NetDesc
