import NetDesc.Expr.Build
import NetDesc.Proofs.Run.Calls
import NetDesc.Proofs.Variation.Relation

namespace NetDesc

namespace Expr

@[simp]
theorem unlocated_location (e : Expr) : e.unlocated.location = .unknown := by
  obtain ⟨kind, location⟩ := e
  cases kind with
  | lambda params body => cases params; rfl
  | apply func args => cases args; rfl
  | _ => rfl

theorem unlocatedItems_eq_map (items : List Expr) : unlocatedItems items = items.map unlocated := by
  induction items with
  | nil => rfl
  | cons item rest ih => rw [unlocatedItems, ih, List.map_cons]

end Expr

namespace Binding

/-- The declaration without locations, neither its own nor those in what it declares. -/
def unlocated (b : Binding) : Binding :=
  .ofName b.name.name b.value.unlocated

theorem unlocatedBindings_eq_map (bindings : List Binding) :
    unlocatedBindings bindings = bindings.map unlocated := by
  induction bindings with
  | nil => rfl
  | cons b rest ih =>
    cases b
    rw [unlocatedBindings, ih, List.map_cons]
    rfl

end Binding

/-- The function without the locations in its body. -/
def Function.unlocated (f : Function) : Function :=
  { f with body := f.body.unlocated }

/-- Functions are the only payloads that contain expressions. -/
def Payload.unlocated : Payload → Payload
  | function f => function f.unlocated
  | x => x

/-- The value without the location where it was made. -/
def Value.unlocated (v : Value) : Value :=
  ⟨v.payload.unlocated, .unknown, v.path⟩

/-- The computation without locations: those in its expression, and where an element of a
    comprehension comes from. -/
def Task.unlocated : Task → Task
  | evaluate e scope path => evaluate e.unlocated scope path
  | element initializer index path _ => element initializer.unlocated index.unlocated path .unknown
  | constant v => constant v.unlocated

def Progress.unlocated : Progress → Progress
  | pending => pending
  | running => running
  | finished v => finished v.unlocated

def Cell.unlocated (c : Cell) : Cell where
  task := c.task.unlocated
  progress := c.progress.unlocated
  location := .unknown
  path := c.path

def Member.unlocated (m : Member) : Member :=
  { m with location := .unknown }

def Record.unlocated (r : Record) : Record :=
  { r with members := r.members.map fun p => (p.1, p.2.unlocated) }

def Network.unlocated (n : Network) : Network :=
  { n with location := .unknown }

theorem Record.unlocated_default : (default : Record).unlocated = default := by
  simp [default, instInhabitedRecord.default, unlocated]

/-- The store without locations. Cells, records and networks have some; nodes, actions and what was
    printed have none. -/
def Store.unlocated (s : Store) : Store :=
  { s with
    cells := s.cells.map Cell.unlocated
    records := s.records.map Record.unlocated
    networks := s.networks.map Network.unlocated }

/-- What an expression consists of, without locations. -/
theorem Expr.unlocated_kind_varies (e : Expr) :
    e.kind.Varies (fun e e' => e' = e.unlocated) (fun _ l' => l' = .unknown) e.unlocated.kind := by
  have hbindings (bs : List Binding) :
      List.Forall₂ (Binding.Varies (fun e e' => e' = e.unlocated) fun _ l' => l' = .unknown) bs
        (unlocatedBindings bs) := by
    rw [Binding.unlocatedBindings_eq_map, List.forall₂_map_right_iff, List.forall₂_same]
    exact fun b _ => ⟨⟨rfl, rfl⟩, rfl⟩
  have hitems (es : List Expr) :
      List.Forall₂ (fun e e' : Expr => e' = e.unlocated) es (unlocatedItems es) := by
    rw [Expr.unlocatedItems_eq_map, List.forall₂_map_right_iff, List.forall₂_same]
    exact fun _ _ => rfl
  obtain ⟨kind, location⟩ := e
  cases kind with
  | number x => exact .number x
  | text s => exact .text s
  | truth b => exact .truth b
  | new t e => exact .new ⟨rfl, rfl⟩ rfl
  | conditional c t e => exact .conditional rfl rfl rfl
  | lambda params body =>
    obtain ⟨positional, named⟩ := params
    refine .lambda ⟨?_, hbindings named⟩ rfl
    simp [ParamList.positional, Function.comp_def]
  | apply func args =>
    obtain ⟨positional, named, place⟩ := args
    exact .apply rfl ⟨hitems positional, hbindings named, rfl⟩
  | record bs => exact .record (hbindings bs)
  | var name => exact .var name
  | member e m => exact .member rfl ⟨rfl, rfl⟩
  | array es => exact .array (hitems es)
  | comprehension a b c => exact .comprehension rfl rfl rfl
  | index a b => exact .index rfl rfl
  | unary op a => exact .unary op rfl
  | binary op a b => exact .binary op rfl rfl

/-- The second run is the first one without locations. Errors have the same cause. What remains
    of an expression is of the same form, so both runs take the same steps. -/
def Variation.erasure : Variation where
  expr e e' := e' = e.unlocated
  location _ l' := l' = .unknown
  place _ l' := l' = .unknown
  error e e' := e.cause = e'.cause
  idle _ := False
  unknown := rfl
  orElse := by
    rintro l l' k k' rfl rfl
    rfl
  place_of_location h := h
  expr_kind := by
    rintro e e' rfl -
    exact e.unlocated_kind_varies
  expr_location := by
    rintro e e' rfl -
    exact e.unlocated_location
  expr_place := by
    rintro e e' rfl
    exact e.unlocated_location
  raised _ _ _ _ := rfl
  through h _ := by simpa only [EvalError.through_cause] using h

theorem Function.varies_erasure_iff {f g : Function} : f.Varies .erasure g ↔ g = f.unlocated := by
  constructor
  · intro h
    cases g
    simp only [unlocated, h.params, h.named, h.scope, h.name, mk.injEq, true_and, and_true]
    exact h.body
  · rintro rfl
    exact ⟨rfl, rfl, rfl, rfl, rfl⟩

/-- A value stands for another iff it is that value without locations, so that nothing is left to
    choose in the second run. The same holds for everything that is made of values. -/
theorem Value.varies_erasure_iff {v w : Value} : v.Varies .erasure w ↔ w = v.unlocated := by
  obtain ⟨x, l, path⟩ := v
  constructor
  · intro h
    obtain ⟨y, l', path'⟩ := w
    obtain ⟨hpayload, rfl, rfl⟩ := h
    cases hpayload with
    | function h => rw [Function.varies_erasure_iff.1 h]; rfl
    | _ => rfl
  · rintro rfl
    refine ⟨?_, rfl, rfl⟩
    cases x with
    | number x => exact .number x
    | text s => exact .text s
    | truth b => exact .truth b
    | record id => exact .record id
    | array a => exact .array a
    | function f => exact .function (Function.varies_erasure_iff.2 rfl)
    | object o => exact .object o

@[simp]
theorem Value.unlocated_typeName (v : Value) : v.unlocated.typeName = v.typeName :=
  (varies_erasure_iff.2 rfl).typeName_eq.symm

theorem Task.varies_erasure_iff {task task' : Task} :
    task.Varies .erasure task' ↔ task' = task.unlocated := by
  constructor
  · intro h
    cases h with
    | evaluate he scope path => rw [show _ = _ from he]; rfl
    | element hf hv path hl =>
      rw [Function.varies_erasure_iff.1 hf, Value.varies_erasure_iff.1 hv, show _ = _ from hl]
      rfl
    | constant h => rw [Value.varies_erasure_iff.1 h]; rfl
  · rintro rfl
    cases task with
    | evaluate e scope path => exact .evaluate rfl scope path
    | element f v path l =>
      exact .element (Function.varies_erasure_iff.2 rfl) (Value.varies_erasure_iff.2 rfl) path rfl
    | constant v => exact .constant (Value.varies_erasure_iff.2 rfl)

theorem Progress.varies_erasure_iff {p q : Progress} :
    p.Varies .erasure q ↔ q = p.unlocated := by
  constructor
  · intro h
    cases h with
    | finished h => rw [Value.varies_erasure_iff.1 h]; rfl
    | _ => rfl
  · rintro rfl
    cases p with
    | pending => exact .pending
    | running => exact .running
    | finished v => exact .finished (Value.varies_erasure_iff.2 rfl)

theorem Cell.varies_erasure_iff {c d : Cell} : c.Varies .erasure d ↔ d = c.unlocated := by
  constructor
  · intro h
    cases d
    simp only [unlocated, h.path, mk.injEq, and_true]
    exact ⟨Task.varies_erasure_iff.1 h.task, Progress.varies_erasure_iff.1 h.progress, h.place⟩
  · rintro rfl
    exact ⟨Task.varies_erasure_iff.2 rfl, Progress.varies_erasure_iff.2 rfl, fun _ => rfl, rfl, rfl⟩

theorem Record.varies_erasure_iff {r k : Record} : r.Varies .erasure k ↔ k = r.unlocated := by
  have hmember (x y : String × Member) :
      (x.1 = y.1 ∧ x.2.Varies .erasure y.2) ↔ (x.1, x.2.unlocated) = y := by
    obtain ⟨name, l, cell⟩ := x
    obtain ⟨name', l', cell'⟩ := y
    constructor
    · rintro ⟨rfl, rfl, rfl⟩
      rfl
    · rintro ⟨⟩
      exact ⟨rfl, rfl, rfl⟩
  have hmembers (xs ys : List (String × Member)) :
      List.Forall₂ (fun x y => x.1 = y.1 ∧ x.2.Varies .erasure y.2) xs ys ↔
        xs.map (fun p => (p.1, p.2.unlocated)) = ys := by
    simp only [hmember]
    rw [← List.forall₂_eq_eq_eq, List.forall₂_map_left_iff]
  obtain ⟨members, enclosing⟩ := r
  obtain ⟨members', enclosing'⟩ := k
  constructor
  · rintro ⟨h, rfl⟩
    have hlists := (hmembers _ _).1 h
    simp only [unlocated, mk.injEq, and_true]
    refine Array.toList_inj.1 ?_
    rw [Array.toList_map]
    exact hlists.symm
  · rintro ⟨⟩
    refine ⟨(hmembers _ _).2 ?_, rfl⟩
    rw [Array.toList_map]

theorem Network.varies_erasure_iff {n n' : Network} :
    n.Varies .erasure n' ↔ n' = n.unlocated := by
  constructor
  · intro h
    cases n'
    simp only [unlocated, h.nodes, h.inputs, h.parameters, h.outputs, h.fields, mk.injEq, true_and]
    exact h.location
  · rintro rfl
    exact ⟨rfl, rfl, rfl, rfl, rfl, rfl⟩

/-- What is at each place of a table, and what is taken to be outside of it, is what remains. -/
theorem getD_map {α : Type} {f : α → α} {otherwise : α} (h : f otherwise = otherwise)
    (xs : Array α) (i : Nat) : (xs.map f).getD i otherwise = f (xs.getD i otherwise) := by
  simp only [Array.getD_eq_getD_getElem?, Array.getElem?_map]
  cases xs[i]? with
  | none => exact h.symm
  | some x => rfl

theorem eq_map_of_getD {α : Type} {f : α → α} {xs ys : Array α} {otherwise : α}
    (hsize : xs.size = ys.size) (h : ∀ i, ys.getD i otherwise = f (xs.getD i otherwise)) :
    ys = xs.map f := by
  refine Array.ext (by rw [Array.size_map, hsize]) fun i hy hmap => ?_
  have hx : i < xs.size := hsize ▸ hy
  have hi := h i
  simp only [Array.getD, hx, hy, dif_pos] at hi
  rw [Array.getElem_map]
  exact hi

/-- The stores of the two runs vary iff the second is the first without locations. This makes the
    general results on varying runs equations. -/
theorem Store.varies_erasure_iff {s t : Store} : s.Varies .erasure t ↔ t = s.unlocated := by
  constructor
  · intro h
    have hcells := eq_map_of_getD h.cells fun id => Cell.varies_erasure_iff.1 (h.cell id)
    have hrecords := eq_map_of_getD h.records fun id => Record.varies_erasure_iff.1 (h.record id)
    have hnetworks := eq_map_of_getD h.networks fun id =>
      Network.varies_erasure_iff.1 (h.network id)
    cases t
    simp only [unlocated, mk.injEq]
    exact ⟨hcells, hrecords, h.nodes.symm, hnetworks, h.actions.symm, h.printed.symm⟩
  · rintro rfl
    exact {
      cells := by simp [unlocated]
      cell := fun id => Cell.varies_erasure_iff.2 (getD_map rfl s.cells id)
      records := by simp [unlocated]
      record := fun id =>
        Record.varies_erasure_iff.2 (getD_map Record.unlocated_default s.records id)
      nodes := rfl
      networks := by simp [unlocated]
      network := fun id => Network.varies_erasure_iff.2 (getD_map rfl s.networks id)
      actions := rfl
      printed := rfl }

end NetDesc
