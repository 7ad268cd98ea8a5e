import NetDesc.Proofs.Lockstep.Pairing
import NetDesc.Proofs.Matching.Table
import NetDesc.Proofs.Variation.Relation

namespace NetDesc

theorem option_rel_imp {α β : Type} {R R' : α → β → Prop} {x : Option α} {y : Option β}
    (h : Option.Rel R x y) (hR : ∀ a b, R a b → R' a b) : Option.Rel R' x y := by
  cases h with
  | none => exact .none
  | some h => exact .some (hR _ _ h)

/-- Expressions of the same form and place with related parts. Unless the order counts, bindings of
    records with distinct names may come in any order. -/
inductive ExprKind.Rearranges (expr : Expr → Expr → Prop) (ordered : Prop) :
    ExprKind → ExprKind → Prop
  | same {k k' : ExprKind} (h : k.Varies expr Eq k') : Rearranges expr ordered k k'
  | record (hfree : ¬ordered) {bs bs' bs'' : List Binding}
      (hparts : List.Forall₂ (Binding.Varies expr Eq) bs bs') (horder : bs'.Perm bs'')
      (hnames : (bs.map (·.name.name)).Nodup) : Rearranges expr ordered (.record bs) (.record bs'')

/-- What two runs may differ in, apart from the places of what they make and hold. If the order
    of declarations is disregarded, records have the same members in any order. -/
structure Comparison where
  /-- Which expressions of the second run may stand for which of the first. -/
  expr : Expr → Expr → Prop
  /-- The order of declarations is the same. -/
  ordered : Prop
  /-- What had been printed to the second store only. -/
  before : Array String
  expr_location : ∀ {e e' : Expr}, expr e e' → e.location = e'.location
  expr_kind : ∀ {e e' : Expr}, expr e e' → e.kind.Rearranges expr ordered e'.kind

section Relations

variable (K : Comparison) (m : Matching)

structure Function.Corresponds (f g : Function) : Prop where
  params : f.params = g.params
  named : List.Forall₂ (fun x y => x.1 = y.1 ∧ m .cell x.2 y.2) f.named g.named
  body : K.expr f.body g.body
  scope : m .record f.scope g.scope
  name : f.name = g.name

structure LazyArray.Corresponds (a b : LazyArray) : Prop where
  first : a.first = b.first
  cells : List.Forall₂ (m .cell) a.cells.toList b.cells.toList

inductive Object.Corresponds : Object → Object → Prop
  | node {i j : NodeId} (h : m .node i j) : Corresponds (.node i) (.node j)
  | network {i j : NetworkId} (h : m .network i j) : Corresponds (.network i) (.network j)
  | action {i j : ActionId} (h : m .action i j) : Corresponds (.action i) (.action j)

inductive Payload.Corresponds : Payload → Payload → Prop
  | number (x : Float) : Corresponds (.number x) (.number x)
  | text (s : String) : Corresponds (.text s) (.text s)
  | truth (b : Bool) : Corresponds (.truth b) (.truth b)
  | record {r k : RecordId} (h : m .record r k) : Corresponds (.record r) (.record k)
  | array {a b : LazyArray} (h : a.Corresponds m b) : Corresponds (.array a) (.array b)
  | function {f g : Function} (h : f.Corresponds K m g) : Corresponds (.function f) (.function g)
  | object {o u : Object} (h : o.Corresponds m u) : Corresponds (.object o) (.object u)

structure Value.Corresponds (v w : Value) : Prop where
  payload : v.payload.Corresponds K m w.payload
  location : v.location = w.location
  path : v.path = w.path

inductive Task.Corresponds : Task → Task → Prop
  | evaluate {e e' : Expr} (he : K.expr e e') {scope scope' : RecordId}
      (hscope : m .record scope scope') (path : String) :
      Corresponds (.evaluate e scope path) (.evaluate e' scope' path)
  | element {f g : Function} (hf : f.Corresponds K m g) {v w : Value} (hv : v.Corresponds K m w)
      (path : String) (location : Location) :
      Corresponds (.element f v path location) (.element g w path location)
  | constant {v w : Value} (h : v.Corresponds K m w) : Corresponds (.constant v) (.constant w)

inductive Progress.Corresponds : Progress → Progress → Prop
  | pending : Corresponds .pending .pending
  | running : Corresponds .running .running
  | finished {v w : Value} (h : v.Corresponds K m w) : Corresponds (.finished v) (.finished w)

structure Cell.Corresponds (c d : Cell) : Prop where
  task : c.task.Corresponds K m d.task
  progress : c.progress.Corresponds K m d.progress
  location : c.location = d.location
  path : c.path = d.path

structure Member.Corresponds (x y : Member) : Prop where
  location : x.location = y.location
  cell : m .cell x.cell y.cell

/-- A name with a member, and the same name with one that corresponds to it. -/
structure Member.CorrespondsNamed (x y : String × Member) : Prop where
  name : x.1 = y.1
  member : x.2.Corresponds m y.2

/-- The same members, in the same order if that counts. -/
structure Record.Corresponds (r k : Record) : Prop where
  found : ∀ name, Option.Rel (Member.Corresponds m) (r.find? name) (k.find? name)
  members : K.ordered →
    List.Forall₂ (Member.CorrespondsNamed m) r.members.toList k.members.toList
  enclosing : List.Forall₂ (m .record) r.enclosing k.enclosing

structure Node.Corresponds (n k : Node) : Prop where
  operation : n.operation = k.operation
  name : n.name = k.name
  tag : n.tag = k.tag
  settings : n.settings = k.settings
  inputs : List.Forall₂ (m .node) n.inputs k.inputs
  pendingInput : Option.Rel (m .cell) n.pendingInput k.pendingInput

structure Network.Corresponds (n k : Network) : Prop where
  nodes : List.Forall₂ (fun x y => x.1 = y.1 ∧ m .node x.2 y.2) n.nodes k.nodes
  inputs : n.inputs = k.inputs
  parameters : n.parameters = k.parameters
  outputs : n.outputs = k.outputs
  fields : m .record n.fields k.fields
  location : n.location = k.location

def Table.Entry.Corresponds : (T : Table) → T.Entry → T.Entry → Prop
  | .cell => Cell.Corresponds K m
  | .record => Record.Corresponds K m
  | .node => Node.Corresponds m
  | .network => Network.Corresponds m
  | .action => Eq

/-- Places that correspond hold what corresponds, and the same has been printed but for what was
    printed before. -/
structure Store.Corresponds (s t : Store) : Prop where
  tables : ∀ T, Paired (m T) (Table.Entry.Corresponds K m T) (s.table T) (t.table T)
  printed : t.printed = K.before ++ s.printed

end Relations

section Monotone

variable {K : Comparison} {m n : Matching} (hmn : m ≤ n)

include hmn

theorem Function.Corresponds.mono {f g : Function} (h : f.Corresponds K m g) :
    f.Corresponds K n g :=
  { h with
    named := h.named.imp fun _ _ hx => ⟨hx.1, hmn _ _ _ hx.2⟩
    scope := hmn _ _ _ h.scope }

theorem Object.Corresponds.mono {o u : Object} (h : o.Corresponds m u) : o.Corresponds n u := by
  cases h with
  | node h => exact .node (hmn _ _ _ h)
  | network h => exact .network (hmn _ _ _ h)
  | action h => exact .action (hmn _ _ _ h)

theorem Payload.Corresponds.mono {x y : Payload} (h : x.Corresponds K m y) :
    x.Corresponds K n y := by
  cases h with
  | number x => exact .number x
  | text s => exact .text s
  | truth b => exact .truth b
  | record h => exact .record (hmn _ _ _ h)
  | array h => exact .array ⟨h.first, h.cells.imp fun _ _ hc => hmn _ _ _ hc⟩
  | function h => exact .function (h.mono hmn)
  | object h => exact .object (h.mono hmn)

theorem Value.Corresponds.mono {v w : Value} (h : v.Corresponds K m w) : v.Corresponds K n w :=
  { h with payload := h.payload.mono hmn }

theorem Task.Corresponds.mono {k l : Task} (h : k.Corresponds K m l) : k.Corresponds K n l := by
  cases h with
  | evaluate he hscope path => exact .evaluate he (hmn _ _ _ hscope) path
  | element hf hv path location => exact .element (hf.mono hmn) (hv.mono hmn) path location
  | constant h => exact .constant (h.mono hmn)

theorem Progress.Corresponds.mono {x y : Progress} (h : x.Corresponds K m y) :
    x.Corresponds K n y := by
  cases h with
  | pending => exact .pending
  | running => exact .running
  | finished h => exact .finished (h.mono hmn)

theorem Cell.Corresponds.mono {c d : Cell} (h : c.Corresponds K m d) : c.Corresponds K n d :=
  { h with
    task := h.task.mono hmn
    progress := h.progress.mono hmn }

theorem Member.Corresponds.mono {x y : Member} (h : x.Corresponds m y) : x.Corresponds n y :=
  ⟨h.location, hmn _ _ _ h.cell⟩

theorem Record.Corresponds.mono {r k : Record} (h : r.Corresponds K m k) :
    r.Corresponds K n k where
  found name := option_rel_imp (h.found name) fun _ _ hx => hx.mono hmn
  members hordered := (h.members hordered).imp fun _ _ hx => ⟨hx.name, hx.member.mono hmn⟩
  enclosing := h.enclosing.imp fun _ _ hr => hmn _ _ _ hr

theorem Node.Corresponds.mono {x y : Node} (h : x.Corresponds m y) : x.Corresponds n y :=
  { h with
    inputs := h.inputs.imp fun _ _ hi => hmn _ _ _ hi
    pendingInput := option_rel_imp h.pendingInput fun _ _ hc => hmn _ _ _ hc }

theorem Network.Corresponds.mono {x y : Network} (h : x.Corresponds m y) : x.Corresponds n y :=
  { h with
    nodes := h.nodes.imp fun _ _ hx => ⟨hx.1, hmn _ _ _ hx.2⟩
    fields := hmn _ _ _ h.fields }

theorem Table.Entry.Corresponds.mono {T : Table} {x y : T.Entry}
    (h : Table.Entry.Corresponds K m T x y) : Table.Entry.Corresponds K n T x y := by
  cases T with
  | cell => exact Cell.Corresponds.mono hmn h
  | record => exact Record.Corresponds.mono hmn h
  | node => exact Node.Corresponds.mono hmn h
  | network => exact Network.Corresponds.mono hmn h
  | action => exact h

end Monotone

variable {K : Comparison} {m : Matching}

theorem Function.Corresponds.arity_eq {f g : Function} (h : f.Corresponds K m g) :
    f.arity = g.arity :=
  congrArg List.length h.params

theorem Object.Corresponds.typeName_eq {o u : Object} (h : o.Corresponds m u) :
    o.typeName = u.typeName := by
  cases h <;> rfl

theorem Value.Corresponds.typeName_eq {v w : Value} (h : v.Corresponds K m w) :
    v.typeName = w.typeName := by
  obtain ⟨x, l, path⟩ := v
  obtain ⟨y, l', path'⟩ := w
  cases h.payload with
  | object ho => exact ho.typeName_eq
  | _ => rfl

/-- Nothing can be told of two values that correspond but that they are the same. -/
theorem Value.Corresponds.same {v w : Value} (h : v.Corresponds K m w) : v.Same w where
  typeName := h.typeName_eq
  location := h.location
  path := h.path
  scalar hs := by
    obtain ⟨x, l, path⟩ := v
    obtain ⟨y, l', path'⟩ := w
    cases h.payload with
    | number | text | truth => rfl
    | _ => exact (hs.elim id id).elim

/-- Scalars refer to nothing. -/
theorem Value.Corresponds.of_scalar {v : Value} (h : v.payload.IsScalar) : v.Corresponds K m v := by
  refine ⟨?_, rfl, rfl⟩
  cases hpayload : v.payload with
  | number x => exact .number x
  | text s => exact .text s
  | truth b => exact .truth b
  | _ => simp [hpayload, Payload.IsScalar] at h

theorem Cell.Corresponds.suspended {task task' : Task} (h : task.Corresponds K m task')
    (location : Location) (path : String) :
    (Cell.suspended task location path).Corresponds K m (.suspended task' location path) :=
  ⟨h, .pending, rfl, rfl⟩

theorem Cell.Corresponds.ready {v w : Value} (h : v.Corresponds K m w) :
    (Cell.ready v).Corresponds K m (.ready w) :=
  ⟨.constant h, .finished h, h.location, h.path⟩

namespace Record.Corresponds

variable {r k : Record}

theorem contains_eq (h : r.Corresponds K m k) (name : String) :
    r.contains name = k.contains name :=
  Record.contains_eq_of_rel (h.found name)

theorem add (h : r.Corresponds K m k) (name : String) {x y : Member} (hxy : x.Corresponds m y) :
    (r.add name x).Corresponds K m (k.add name y) where
  found other := by
    rw [find?_add, find?_add]
    split
    · exact .some hxy
    · exact h.found other
  members hordered :=
    have hmembers := (h.members hordered).imp fun _ _ hxy => And.intro hxy.name hxy.member
    (Record.add_rel hmembers name hxy).imp fun _ _ hxy => ⟨hxy.1, hxy.2⟩
  enclosing := by simpa using h.enclosing

end Record.Corresponds

namespace Store.Corresponds

variable {s t : Store}

/-- At the start nothing corresponds to anything. -/
theorem start (hprinted : t.printed = K.before ++ s.printed) : s.Corresponds K ⊥ t :=
  ⟨fun _ => .none _ _ _, hprinted⟩

section Reading

variable (h : s.Corresponds K m t) {i j : Nat}

include h

theorem cell (hij : m .cell i j) : (s.cell i).Corresponds K m (t.cell j) :=
  (h.tables .cell).getD hij _ _

theorem record (hij : m .record i j) : (s.record i).Corresponds K m (t.record j) :=
  (h.tables .record).getD hij _ _

theorem node (hij : m .node i j) : (s.node i).Corresponds m (t.node j) :=
  (h.tables .node).getD hij _ _

theorem network (hij : m .network i j) : (s.network i).Corresponds m (t.network j) :=
  (h.tables .network).getD hij _ _

/-- A name stands for the same in scopes that correspond. -/
theorem find? (hij : m .record i j) (name : String) :
    Option.Rel (Member.Corresponds m) (s.find? i name) (t.find? j name) := by
  have hscopes : List.Forall₂ (m .record) (i :: (s.record i).enclosing)
      (j :: (t.record j).enclosing) :=
    .cons hij (h.record hij).enclosing
  exact Store.find?_rel (hscopes.imp fun _ _ hrk => (h.record hrk).found name)

theorem children {o u : Object} (ho : o.Corresponds m u) :
    List.Forall₂ (Object.Corresponds m) (s.children o) (t.children u) := by
  cases ho with
  | node hij =>
    refine List.forall₂_map_left_iff.2 (List.forall₂_map_right_iff.2 ?_)
    exact (h.node hij).inputs.imp fun _ _ hi => .node hi
  | network hij =>
    refine List.forall₂_map_left_iff.2 (List.forall₂_map_right_iff.2 ?_)
    exact (h.network hij).nodes.imp fun _ _ hx => .node hx.2
  | action hij => exact .nil

theorem inputNames_eq {n k : Node} (hn : n.Corresponds m k) : s.inputNames n = t.inputNames k := by
  have hnames : List.Forall₂ Eq (n.inputs.map fun id => (s.node id).name)
      (k.inputs.map fun id => (t.node id).name) := by
    refine List.forall₂_map_left_iff.2 (List.forall₂_map_right_iff.2 ?_)
    exact hn.inputs.imp fun _ _ hi => (h.node hi).name
  rwa [List.forall₂_eq_eq_eq] at hnames

theorem describeNode_eq {n k : Node} (hn : n.Corresponds m k) :
    s.describeNode n = t.describeNode k := by
  unfold describeNode
  rw [hn.name, hn.operation, hn.settings, h.inputNames_eq hn]

theorem describe_eq {o u : Object} (ho : o.Corresponds m u) : s.describe o = t.describe u := by
  cases ho with
  | node hij => exact h.describeNode_eq (h.node hij)
  | @network i j hij =>
    have hnodes : List.Forall₂ Eq
        ((s.network i).nodes.map fun x => s.describeNode (s.node x.2))
        ((t.network j).nodes.map fun x => t.describeNode (t.node x.2)) := by
      refine List.forall₂_map_left_iff.2 (List.forall₂_map_right_iff.2 ?_)
      exact (h.network hij).nodes.imp fun _ _ hx => h.describeNode_eq (h.node hx.2)
    rw [List.forall₂_eq_eq_eq] at hnodes
    exact congrArg (fun lines => "NDLComputationNetwork " ++
      Layout.nest ("\n".intercalate lines) '[' true ']') hnodes
  | action hij => rfl

/-- Objects are the same iff those they correspond to are. -/
theorem object_eq_iff {o u o' u' : Object} (ho : o.Corresponds m u) (ho' : o'.Corresponds m u') :
    o = o' ↔ u = u' := by
  cases ho with
  | node hi =>
    cases ho' with
    | node hj => simpa using (h.tables .node).unique hi hj
    | _ => simp
  | network hi =>
    cases ho' with
    | network hj => simpa using (h.tables .network).unique hi hj
    | _ => simp
  | action hi =>
    cases ho' with
    | action hj => simpa using (h.tables .action).unique hi hj
    | _ => simp

end Reading

section Writing

variable (h : s.Corresponds K m t) {T : Table}

include h

/-- What is made by both runs corresponds from then on. -/
theorem push {x y : T.Entry} (hxy : Table.Entry.Corresponds K m T x y) :
    (s.push T x).Corresponds K (m.next T s t) (t.push T y) where
  tables U := by
    have hle := m.le_next T s t
    have hold := (h.tables U).imp fun _ _ h => Table.Entry.Corresponds.mono hle h
    by_cases hU : U = T
    · subst hU
      rw [table_push_self, table_push_self]
      have hpush := hold.push (hxy.mono hle)
      refine ⟨fun hij => hpush.entry ?_, fun hij hkl => hpush.unique ?_ ?_⟩
      · exact Matching.extend_self.1 hij
      · exact Matching.extend_self.1 hij
      · exact Matching.extend_self.1 hkl
    · have hsame : m.next T s t U = m U := Matching.extend_of_ne hU
      rw [table_push_of_ne s hU, table_push_of_ne t hU, hsame]
      exact hold
  printed := by simpa using h.printed

theorem modify {i j : Nat} (hij : m T i j) {f g : T.Entry → T.Entry}
    (hfg : ∀ x y, Table.Entry.Corresponds K m T x y →
      Table.Entry.Corresponds K m T (f x) (g y)) :
    (s.modify T i f).Corresponds K m (t.modify T j g) where
  tables U := by
    by_cases hU : U = T
    · subst hU
      rw [table_modify_self, table_modify_self]
      exact (h.tables U).modify hij hfg
    · rw [table_modify_of_ne s hU, table_modify_of_ne t hU]
      exact h.tables U
  printed := by simpa using h.printed

omit T

theorem setProgress {i j : CellId} (hij : m .cell i j) {p q : Progress}
    (hpq : p.Corresponds K m q) : (s.setProgress i p).Corresponds K m (t.setProgress j q) :=
  h.modify (T := .cell) hij fun _ _ hcd => { hcd with progress := hpq }

theorem print (line : String) :
    { s with printed := s.printed.push line }.Corresponds K m
      { t with printed := t.printed.push line } where
  tables T := by
    have htables := h.tables T
    cases T <;> exact htables
  printed := by simp [h.printed]

end Writing

end Store.Corresponds

end NetDesc
