import NetDesc.Proofs.Store.Related
import NetDesc.Proofs.Store.Valid

namespace NetDesc

section Shapes

variable (expr : Expr → Expr → Prop) (location : Location → Location → Prop)

structure Ident.Varies (i j : Ident) : Prop where
  name : i.name = j.name
  location : location i.location j.location

structure Binding.Varies (b c : Binding) : Prop where
  name : b.name.Varies location c.name
  value : expr b.value c.value

structure ParamList.Varies (p q : ParamList) : Prop where
  positional : p.positional.map (·.name) = q.positional.map (·.name)
  named : List.Forall₂ (Binding.Varies expr location) p.named q.named

structure ArgList.Varies (p q : ArgList) : Prop where
  positional : List.Forall₂ expr p.positional q.positional
  named : List.Forall₂ (Binding.Varies expr location) p.named q.named
  location : location p.location q.location

inductive ExprKind.Varies : ExprKind → ExprKind → Prop
  | number (x : Float) : Varies (.number x) (.number x)
  | text (s : String) : Varies (.text s) (.text s)
  | truth (b : Bool) : Varies (.truth b) (.truth b)
  | new {t t' : Ident} {e e' : Expr} (ht : t.Varies location t') (he : expr e e') :
      Varies (.new t e) (.new t' e')
  | conditional {c c' t t' e e' : Expr} (hc : expr c c') (ht : expr t t') (he : expr e e') :
      Varies (.conditional c t e) (.conditional c' t' e')
  | lambda {p p' : ParamList} {e e' : Expr} (hp : p.Varies expr location p') (he : expr e e') :
      Varies (.lambda p e) (.lambda p' e')
  | apply {f f' : Expr} {a a' : ArgList} (hf : expr f f') (ha : a.Varies expr location a') :
      Varies (.apply f a) (.apply f' a')
  | record {bs bs' : List Binding} (h : List.Forall₂ (Binding.Varies expr location) bs bs') :
      Varies (.record bs) (.record bs')
  | var (name : String) : Varies (.var name) (.var name)
  | member {e e' : Expr} {m m' : Ident} (he : expr e e') (hm : m.Varies location m') :
      Varies (.member e m) (.member e' m')
  | array {es es' : List Expr} (h : List.Forall₂ expr es es') : Varies (.array es) (.array es')
  | comprehension {a a' b b' c c' : Expr} (ha : expr a a') (hb : expr b b') (hc : expr c c') :
      Varies (.comprehension a b c) (.comprehension a' b' c')
  | index {a a' b b' : Expr} (ha : expr a a') (hb : expr b b') : Varies (.index a b) (.index a' b')
  | unary (op : UnaryOp) {a a' : Expr} (ha : expr a a') : Varies (.unary op a) (.unary op a')
  | binary (op : BinaryOp) {a a' b b' : Expr} (ha : expr a a') (hb : expr b b') :
      Varies (.binary op a b) (.binary op a' b')

end Shapes

/-- Which expressions, locations and errors of one run may stand for which of another that takes
    the same steps. Related expressions have the same form and related parts, unless the first
    one is idle: then the first run leaves it alone, so nothing is asked of the other. -/
structure Variation where
  expr : Expr → Expr → Prop
  location : Location → Location → Prop
  /-- The same for locations that are kept but never shown: where members are declared, and where
      cells are defined that nothing has accessed. -/
  place : Location → Location → Prop
  error : EvalError → EvalError → Prop
  /-- The locations of expressions that the first run does not evaluate. -/
  idle : Location → Prop
  unknown : location .unknown .unknown
  orElse : ∀ {l l' k k' : Location}, location l l' → location k k' →
    location (l.orElse k) (l'.orElse k')
  place_of_location : ∀ {l l' : Location}, location l l' → place l l'
  expr_kind : ∀ {e e' : Expr}, expr e e' → ¬idle e.location →
    e.kind.Varies expr location e'.kind
  expr_location : ∀ {e e' : Expr}, expr e e' → ¬idle e.location →
    location e.location e'.location
  expr_place : ∀ {e e' : Expr}, expr e e' → place e.location e'.location
  raised : ∀ (cause : Cause) {l l' : Location}, location l l' →
    error { cause, location := l } { cause, location := l' }
  through : ∀ {e e' : EvalError} {l l' : Location}, error e e' → location l l' →
    error (e.through l) (e'.through l')

section Relations

variable (V : Variation)

structure Function.Varies (f g : Function) : Prop where
  params : f.params = g.params
  named : f.named = g.named
  body : V.expr f.body g.body
  scope : f.scope = g.scope
  name : f.name = g.name

inductive Payload.Varies : Payload → Payload → Prop
  | number (x : Float) : Varies (.number x) (.number x)
  | text (s : String) : Varies (.text s) (.text s)
  | truth (b : Bool) : Varies (.truth b) (.truth b)
  | record (id : RecordId) : Varies (.record id) (.record id)
  | array (a : LazyArray) : Varies (.array a) (.array a)
  | function {f g : Function} (h : f.Varies V g) : Varies (.function f) (.function g)
  | object (o : Object) : Varies (.object o) (.object o)

structure Value.Varies (v w : Value) : Prop where
  payload : v.payload.Varies V w.payload
  location : V.location v.location w.location
  path : v.path = w.path

inductive Task.Varies : Task → Task → Prop
  | evaluate {e e' : Expr} (h : V.expr e e') (scope : RecordId) (path : String) :
      Varies (.evaluate e scope path) (.evaluate e' scope path)
  | element {f g : Function} (hf : f.Varies V g) {v w : Value} (hv : v.Varies V w) (path : String)
      {l l' : Location} (hl : V.location l l') : Varies (.element f v path l) (.element g w path l')
  | constant {v w : Value} (h : v.Varies V w) : Varies (.constant v) (.constant w)

/-- The task evaluates an expression that the first run does not evaluate. -/
def Task.Idle : Task → Prop
  | .evaluate e _ _ => V.idle e.location
  | _ => False

inductive Progress.Varies : Progress → Progress → Prop
  | pending : Varies .pending .pending
  | running : Varies .running .running
  | finished {v w : Value} (h : v.Varies V w) : Varies (.finished v) (.finished w)

/-- It does not matter where an idle cell is defined as long as it is not being computed. -/
structure Cell.Varies (c d : Cell) : Prop where
  task : c.task.Varies V d.task
  progress : c.progress.Varies V d.progress
  location : ¬c.task.Idle V ∨ c.progress = .running → V.location c.location d.location
  place : V.place c.location d.location
  path : c.path = d.path

structure Member.Varies (m n : Member) : Prop where
  place : V.place m.location n.location
  cell : m.cell = n.cell

/-- The same members in the same cells, which may be declared elsewhere. -/
structure Record.Varies (r k : Record) : Prop where
  members : List.Forall₂ (fun x y => x.1 = y.1 ∧ x.2.Varies V y.2) r.members.toList k.members.toList
  enclosing : r.enclosing = k.enclosing

/-- The same network, made elsewhere. -/
structure Network.Varies (n n' : Network) : Prop where
  nodes : n.nodes = n'.nodes
  inputs : n.inputs = n'.inputs
  parameters : n.parameters = n'.parameters
  outputs : n.outputs = n'.outputs
  fields : n.fields = n'.fields
  location : V.location n.location n'.location

/-- Nodes, actions and what was printed are the same, all else varies. -/
structure Store.Varies (s t : Store) : Prop where
  cells : s.cells.size = t.cells.size
  cell : ∀ id, (s.cell id).Varies V (t.cell id)
  records : s.records.size = t.records.size
  record : ∀ id, (s.record id).Varies V (t.record id)
  nodes : s.nodes = t.nodes
  networks : s.networks.size = t.networks.size
  network : ∀ id, (s.network id).Varies V (t.network id)
  actions : s.actions = t.actions
  printed : s.printed = t.printed

end Relations

theorem Record.Varies.refl {V : Variation} (hlocation : ∀ l, V.location l l) (r : Record) :
    r.Varies V r :=
  ⟨List.forall₂_same.2 fun _ _ => ⟨rfl, V.place_of_location (hlocation _), rfl⟩, rfl⟩

section Reflexive

variable {V : Variation} (hexpr : ∀ e, V.expr e e) (hlocation : ∀ l, V.location l l)

include hexpr

theorem Function.Varies.refl (f : Function) : f.Varies V f :=
  ⟨rfl, rfl, hexpr f.body, rfl, rfl⟩

include hlocation

theorem Value.Varies.refl (v : Value) : v.Varies V v := by
  refine ⟨?_, hlocation _, rfl⟩
  cases v.payload with
  | number x => exact .number x
  | text s => exact .text s
  | truth b => exact .truth b
  | record id => exact .record id
  | array a => exact .array a
  | function f => exact .function (.refl hexpr f)
  | object o => exact .object o

theorem Task.Varies.refl (task : Task) : task.Varies V task := by
  cases task with
  | evaluate e scope path => exact .evaluate (hexpr e) scope path
  | element f v path l =>
    exact .element (.refl hexpr f) (.refl hexpr hlocation v) path (hlocation l)
  | constant v => exact .constant (.refl hexpr hlocation v)

theorem Cell.Varies.refl (c : Cell) : c.Varies V c := by
  refine ⟨.refl hexpr hlocation _, ?_, fun _ => hlocation _, V.place_of_location (hlocation _), rfl⟩
  cases c.progress with
  | pending => exact .pending
  | running => exact .running
  | finished v => exact .finished (.refl hexpr hlocation v)

theorem Store.Varies.refl (s : Store) : s.Varies V s where
  cells := rfl
  cell _ := .refl hexpr hlocation _
  records := rfl
  record id := .refl hlocation (s.record id)
  nodes := rfl
  networks := rfl
  network _ := ⟨rfl, rfl, rfl, rfl, rfl, hlocation _⟩
  actions := rfl
  printed := rfl

end Reflexive

variable {V : Variation}

theorem Function.Varies.arity_eq {f g : Function} (h : f.Varies V g) : f.arity = g.arity :=
  congrArg List.length h.params

namespace Value.Varies

variable {v w : Value}

theorem typeName_eq (h : v.Varies V w) : v.typeName = w.typeName := by
  obtain ⟨x, l, path⟩ := v
  obtain ⟨y, l', path'⟩ := w
  cases h.payload <;> rfl

end Value.Varies

/-- A computation that has not started. -/
theorem Cell.Varies.suspended {task task' : Task} (h : task.Varies V task') {l l' : Location}
    (hl : ¬task.Idle V → V.location l l') (hplace : V.place l l') (path : String) :
    (Cell.suspended task l path).Varies V (.suspended task' l' path) :=
  ⟨h, .pending, fun hawake => hl (hawake.resolve_right nofun), hplace, rfl⟩

theorem Cell.Varies.ready {v w : Value} (h : v.Varies V w) :
    (Cell.ready v).Varies V (.ready w) :=
  ⟨.constant h, .finished h, fun _ => h.location, V.place_of_location h.location, h.path⟩

namespace Record.Varies

variable {r k : Record}

theorem find? (h : r.Varies V k) (name : String) :
    Option.Rel (Member.Varies V) (r.find? name) (k.find? name) :=
  Record.find?_rel h.members name

/-- The member of a name is in the same cell. -/
theorem find?_cell_eq (h : r.Varies V k) (name : String) :
    (r.find? name).map (·.cell) = (k.find? name).map (·.cell) := by
  have hfind := h.find? name
  generalize r.find? name = x at hfind ⊢
  generalize k.find? name = y at hfind ⊢
  cases hfind with
  | none => rfl
  | some hm => exact congrArg some hm.cell

theorem contains_eq (h : r.Varies V k) (name : String) : r.contains name = k.contains name :=
  Record.contains_eq_of_rel (h.find? name)

theorem add (h : r.Varies V k) (name : String) {m n : Member} (hm : m.Varies V n) :
    (r.add name m).Varies V (k.add name n) where
  members := Record.add_rel h.members name hm
  enclosing := by simpa using h.enclosing

end Record.Varies

namespace Store.Varies

variable {s t : Store}

theorem node_eq (h : s.Varies V t) (id : NodeId) : s.node id = t.node id := by
  rw [node, h.nodes, node]

/-- A name stands for a member in the same cell. -/
theorem find?_cell_eq (h : s.Varies V t) (scope : RecordId) (name : String) :
    (s.find? scope name).map (·.cell) = (t.find? scope name).map (·.cell) := by
  unfold find?
  simp only [(h.record scope).enclosing, List.map_findSome?, Function.comp_def,
    (h.record _).find?_cell_eq]

theorem children_eq (h : s.Varies V t) (o : Object) : s.children o = t.children o := by
  cases o with
  | node id => simp only [children, h.node_eq]
  | network id => simp only [children, (h.network id).nodes]
  | action id => rfl

theorem describeNode_eq (h : s.Varies V t) (n : Node) : s.describeNode n = t.describeNode n := by
  unfold describeNode inputNames
  simp only [h.node_eq]

theorem describeNetwork_eq (h : s.Varies V t) {n n' : Network} (hn : n.nodes = n'.nodes) :
    s.describeNetwork n = t.describeNetwork n' := by
  have hnodes : n.nodes.map (fun p => s.describeNode (s.node p.2)) =
      n'.nodes.map fun p => t.describeNode (t.node p.2) := by
    rw [hn]
    exact List.map_congr_left fun p _ => by rw [h.describeNode_eq, h.node_eq]
  unfold describeNetwork
  rw [hnodes]

theorem describe_eq (h : s.Varies V t) (o : Object) : s.describe o = t.describe o := by
  cases o with
  | node id => exact (h.describeNode_eq (s.node id)).trans (congrArg t.describeNode (h.node_eq id))
  | network id => exact h.describeNetwork_eq ((h.network id).nodes)
  | action id => rfl

theorem newCell (h : s.Varies V t) {c d : Cell} (hcd : c.Varies V d) :
    { s with cells := s.cells.push c }.Varies V { t with cells := t.cells.push d } :=
  { h with
    cells := by simp only [Array.size_push, h.cells]
    cell := fun id => by
      rw [cell_push, cell_push, h.cells]
      split
      · exact hcd
      · exact h.cell id }

theorem newNetwork (h : s.Varies V t) {n n' : Network} (hn : n.Varies V n') :
    { s with networks := s.networks.push n }.Varies V
      { t with networks := t.networks.push n' } :=
  { h with
    networks := by simp only [Array.size_push, h.networks]
    network := fun id => by
      rw [network_push, network_push, h.networks]
      split
      · exact hn
      · exact h.network id }

theorem newRecord (h : s.Varies V t) {r k : Record} (hrk : r.Varies V k) :
    { s with records := s.records.push r }.Varies V { t with records := t.records.push k } :=
  { h with
    records := by simp only [Array.size_push, h.records]
    record := fun id => by
      rw [record_push, record_push, h.records]
      split
      · exact hrk
      · exact h.record id }

theorem addMember (h : s.Varies V t) (id : RecordId) (name : String) {m n : Member}
    (hm : m.Varies V n) :
    { s with records := s.records.modify id (·.add name m) }.Varies V
      { t with records := t.records.modify id (·.add name n) } :=
  { h with
    records := by simp only [Array.size_modify, h.records]
    record := fun other => by
      rw [record_modify, record_modify, h.records]
      split
      · exact (h.record other).add name hm
      · exact h.record other }

theorem modifyNode (h : s.Varies V t) (id : NodeId) (f : Node → Node) :
    { s with nodes := s.nodes.modify id f }.Varies V { t with nodes := t.nodes.modify id f } :=
  { h with nodes := by simp only [h.nodes] }

theorem modifyAction (h : s.Varies V t) (id : ActionId) (f : Action → Action) :
    { s with actions := s.actions.modify id f }.Varies V
      { t with actions := t.actions.modify id f } :=
  { h with actions := by simp only [h.actions] }

/-- A cell that starts to be computed must not be idle. -/
theorem setProgress (h : s.Varies V t) (id : CellId) {p q : Progress} (hpq : p.Varies V q)
    (hawake : p = .running → ¬(s.cell id).task.Idle V) :
    (s.setProgress id p).Varies V (t.setProgress id q) :=
  { h with
    cells := by simp only [setProgress_cells_size, h.cells]
    cell := fun other => by
      have hcell := h.cell other
      rw [setProgress_cell, setProgress_cell, h.cells]
      split
      · next hsame =>
        obtain ⟨rfl, -⟩ := hsame
        exact {
          task := hcell.task
          progress := hpq
          location := fun hor => hcell.location (.inl (hor.elim (fun h => h) hawake))
          place := hcell.place
          path := hcell.path }
      · exact hcell }

end Store.Varies

end NetDesc
