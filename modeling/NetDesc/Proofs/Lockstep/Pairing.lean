import NetDesc.Proofs.Store.Related
import NetDesc.Proofs.Store.Valid

namespace NetDesc

/-- Which cells and records of one store correspond to which of another. Evaluating the same
    expression twice makes them in different places. Objects correspond to nothing: pairings are
    for evaluations that make none. -/
@[ext]
structure Pairing where
  cell : CellId → CellId → Prop
  record : RecordId → RecordId → Prop

namespace Pairing

structure Le (p q : Pairing) : Prop where
  cell : ∀ {c d}, p.cell c d → q.cell c d
  record : ∀ {r k}, p.record r k → q.record r k

instance : LE Pairing := ⟨Le⟩

theorem le_refl (p : Pairing) : p ≤ p :=
  ⟨id, id⟩

theorem le_trans {p q u : Pairing} (hpq : p ≤ q) (hqu : q ≤ u) : p ≤ u :=
  ⟨fun h => hqu.cell (hpq.cell h), fun h => hqu.record (hpq.record h)⟩

/-- Nothing corresponds to anything. -/
def empty : Pairing where
  cell _ _ := False
  record _ _ := False

def addCell (p : Pairing) (c d : CellId) : Pairing :=
  { p with cell := fun x y => p.cell x y ∨ x = c ∧ y = d }

def addRecord (p : Pairing) (r k : RecordId) : Pairing :=
  { p with record := fun x y => p.record x y ∨ x = r ∧ y = k }

def join (p q : Pairing) : Pairing where
  cell c d := p.cell c d ∨ q.cell c d
  record r k := p.record r k ∨ q.record r k

/-- The part of a pairing that is about places the first store already has. -/
def upto (p : Pairing) (s : Store) : Pairing where
  cell c d := p.cell c d ∧ c < s.cells.size
  record r k := p.record r k ∧ r < s.records.size

theorem le_addCell (p : Pairing) (c d : CellId) : p ≤ p.addCell c d :=
  ⟨.inl, id⟩

theorem le_addRecord (p : Pairing) (r k : RecordId) : p ≤ p.addRecord r k :=
  ⟨id, .inl⟩

theorem left_le_join (p q : Pairing) : p ≤ p.join q :=
  ⟨.inl, .inl⟩

theorem right_le_join (p q : Pairing) : q ≤ p.join q :=
  ⟨.inr, .inr⟩

theorem join_mono {p q u : Pairing} (hqu : q ≤ u) : p.join q ≤ p.join u :=
  ⟨Or.imp_right hqu.cell, Or.imp_right hqu.record⟩

theorem upto_le (p : Pairing) (s : Store) : p.upto s ≤ p :=
  ⟨And.left, And.left⟩

/-- Places that the first store already has stay paired. -/
theorem le_upto {p q : Pairing} {s : Store} (hpq : p ≤ q)
    (hcell : ∀ {c d}, p.cell c d → c < s.cells.size)
    (hrecord : ∀ {r k}, p.record r k → r < s.records.size) : p ≤ q.upto s :=
  ⟨fun h => ⟨hpq.cell h, hcell h⟩, fun h => ⟨hpq.record h, hrecord h⟩⟩

theorem join_eq_left {p q : Pairing} (hqp : q ≤ p) : p.join q = p := by
  ext c d
  · exact ⟨fun h => h.elim id hqp.cell, .inl⟩
  · exact ⟨fun h => h.elim id hqp.record, .inl⟩

theorem join_addCell (p q : Pairing) (c d : CellId) :
    p.join (q.addCell c d) = (p.join q).addCell c d := by
  ext x y
  · exact or_assoc.symm
  · exact Iff.rfl

/-- The record that is being filled corresponds to one record only, and the other way round. -/
def Sole (p : Pairing) (r k : RecordId) : Prop :=
  ∀ x y, p.record x y → (x = r ↔ y = k)

end Pairing

structure Function.Alike (p : Pairing) (f g : Function) : Prop where
  params : f.params = g.params
  named : List.Forall₂ (fun x y => x.1 = y.1 ∧ p.cell x.2 y.2) f.named g.named
  body : f.body = g.body
  scope : p.record f.scope g.scope
  name : f.name = g.name

inductive Payload.Alike (p : Pairing) : Payload → Payload → Prop
  | number (x : Float) : Alike p (.number x) (.number x)
  | text (x : String) : Alike p (.text x) (.text x)
  | truth (x : Bool) : Alike p (.truth x) (.truth x)
  | record {r k : RecordId} (h : p.record r k) : Alike p (.record r) (.record k)
  | array {a b : LazyArray} (hfirst : a.first = b.first)
      (hcells : List.Forall₂ p.cell a.cells.toList b.cells.toList) : Alike p (.array a) (.array b)
  | function {f g : Function} (h : f.Alike p g) : Alike p (.function f) (.function g)

structure Value.Alike (p : Pairing) (v w : Value) : Prop where
  payload : v.payload.Alike p w.payload
  location : v.location = w.location
  path : v.path = w.path

inductive Task.Alike (p : Pairing) : Task → Task → Prop
  | evaluate (e : Expr) {scope scope' : RecordId} (h : p.record scope scope') (path : String) :
      Alike p (.evaluate e scope path) (.evaluate e scope' path)
  | element {f g : Function} (hfun : f.Alike p g) {v w : Value} (hindex : v.Alike p w)
      (path : String) (location : Location) :
      Alike p (.element f v path location) (.element g w path location)
  | constant {v w : Value} (h : v.Alike p w) : Alike p (.constant v) (.constant w)

/-- The same computation, with a result that is defined at the same place. -/
structure Cell.Alike (p : Pairing) (c d : Cell) : Prop where
  task : c.task.Alike p d.task
  location : c.location = d.location
  path : c.path = d.path

/-- Nothing has been computed yet, or the results are alike. -/
inductive Progress.Alike (p : Pairing) : Progress → Progress → Prop
  | pending : Alike p .pending .pending
  | finished {v w : Value} (h : v.Alike p w) : Alike p (.finished v) (.finished w)

structure Member.Alike (p : Pairing) (m n : Member) : Prop where
  location : m.location = n.location
  cell : p.cell m.cell n.cell

structure Record.Alike (p : Pairing) (r k : Record) : Prop where
  members : List.Forall₂ (fun x y => x.1 = y.1 ∧ x.2.Alike p y.2) r.members.toList k.members.toList
  enclosing : List.Forall₂ p.record r.enclosing k.enclosing

/-- Corresponding places are there, and they hold the same. How far the cells have come does not
    matter. -/
structure Store.Alike (p : Pairing) (s t : Store) : Prop where
  cell : ∀ {c d}, p.cell c d →
    c < s.cells.size ∧ d < t.cells.size ∧ (s.cell c).Alike p (t.cell d)
  record : ∀ {r k}, p.record r k →
    r < s.records.size ∧ k < t.records.size ∧ (s.record r).Alike p (t.record k)

section Monotone

variable {p q : Pairing} (hpq : p ≤ q)

include hpq

theorem Function.Alike.mono {f g : Function} (h : f.Alike p g) : f.Alike q g :=
  { h with
    named := h.named.imp fun _ _ hx => ⟨hx.1, hpq.cell hx.2⟩
    scope := hpq.record h.scope }

theorem Payload.Alike.mono {x y : Payload} (h : x.Alike p y) : x.Alike q y := by
  cases h with
  | number x => exact .number x
  | text x => exact .text x
  | truth x => exact .truth x
  | record h => exact .record (hpq.record h)
  | array hfirst hcells => exact .array hfirst (hcells.imp fun _ _ hc => hpq.cell hc)
  | function h => exact .function (h.mono hpq)

theorem Value.Alike.mono {v w : Value} (h : v.Alike p w) : v.Alike q w :=
  { h with payload := h.payload.mono hpq }

theorem Task.Alike.mono {k l : Task} (h : k.Alike p l) : k.Alike q l := by
  cases h with
  | evaluate e h path => exact .evaluate e (hpq.record h) path
  | element hfun hindex path location =>
    exact .element (hfun.mono hpq) (hindex.mono hpq) path location
  | constant h => exact .constant (h.mono hpq)

theorem Cell.Alike.mono {c d : Cell} (h : c.Alike p d) : c.Alike q d :=
  { h with task := h.task.mono hpq }

theorem Progress.Alike.mono {x y : Progress} (h : x.Alike p y) : x.Alike q y := by
  cases h with
  | pending => exact .pending
  | finished h => exact .finished (h.mono hpq)

theorem Member.Alike.mono {m n : Member} (h : m.Alike p n) : m.Alike q n :=
  ⟨h.location, hpq.cell h.cell⟩

theorem Record.Alike.mono {r k : Record} (h : r.Alike p k) : r.Alike q k where
  members := h.members.imp fun _ _ hx => ⟨hx.1, hx.2.mono hpq⟩
  enclosing := h.enclosing.imp fun _ _ hx => hpq.record hx

end Monotone

theorem Value.Alike.typeName_eq {p : Pairing} {v w : Value} (h : v.Alike p w) :
    v.typeName = w.typeName := by
  obtain ⟨x, l, path⟩ := v
  obtain ⟨y, l', path'⟩ := w
  cases h.payload <;> rfl

theorem Function.Alike.arity_eq {p : Pairing} {f g : Function} (h : f.Alike p g) :
    f.arity = g.arity := by
  simp only [Function.arity, h.params]

namespace Record.Alike

variable {p : Pairing} {r k : Record}

theorem find? (h : r.Alike p k) (name : String) :
    Option.Rel (Member.Alike p) (r.find? name) (k.find? name) :=
  Record.find?_rel h.members name

theorem contains_eq (h : r.Alike p k) (name : String) : r.contains name = k.contains name :=
  Record.contains_eq_of_rel (h.find? name)

theorem add (h : r.Alike p k) (name : String) {m n : Member} (hm : m.Alike p n) :
    (r.add name m).Alike p (k.add name n) where
  members := Record.add_rel h.members name hm
  enclosing := by simpa using h.enclosing

end Record.Alike

namespace Store.Alike

variable {p : Pairing} {s t : Store}

/-- A name stands for the same in scopes that correspond. -/
theorem find? (h : s.Alike p t) {scope scope' : RecordId} (hscope : p.record scope scope')
    (name : String) : Option.Rel (Member.Alike p) (s.find? scope name) (t.find? scope' name) := by
  have hscopes : List.Forall₂ p.record (scope :: (s.record scope).enclosing)
      (scope' :: (t.record scope').enclosing) :=
    .cons hscope (h.record hscope).2.2.enclosing
  exact Store.find?_rel (hscopes.imp fun _ _ hrk => (h.record hrk).2.2.find? name)

theorem newCell (h : s.Alike p t) {c d : Cell} (hcd : c.Alike p d) :
    { s with cells := s.cells.push c }.Alike (p.addCell s.cells.size t.cells.size)
      { t with cells := t.cells.push d } where
  cell := by
    have hle := p.le_addCell s.cells.size t.cells.size
    rintro x y (hxy | ⟨rfl, rfl⟩)
    · obtain ⟨hx, hy, halike⟩ := h.cell hxy
      simp only [cell_push, if_neg (Nat.ne_of_lt hx), if_neg (Nat.ne_of_lt hy), Array.size_push]
      exact ⟨Nat.lt_succ_of_lt hx, Nat.lt_succ_of_lt hy, halike.mono hle⟩
    · simpa using hcd.mono hle
  record hxy := by
    obtain ⟨hx, hy, halike⟩ := h.record hxy
    exact ⟨hx, hy, halike.mono (p.le_addCell _ _)⟩

theorem newRecord (h : s.Alike p t) {r k : Record} (hrk : r.Alike p k) :
    { s with records := s.records.push r }.Alike (p.addRecord s.records.size t.records.size)
      { t with records := t.records.push k } where
  cell hxy := by
    obtain ⟨hx, hy, halike⟩ := h.cell hxy
    exact ⟨hx, hy, halike.mono (p.le_addRecord _ _)⟩
  record := by
    have hle := p.le_addRecord s.records.size t.records.size
    rintro x y (hxy | ⟨rfl, rfl⟩)
    · obtain ⟨hx, hy, halike⟩ := h.record hxy
      simp only [record_push, if_neg (Nat.ne_of_lt hx), if_neg (Nat.ne_of_lt hy), Array.size_push]
      exact ⟨Nat.lt_succ_of_lt hx, Nat.lt_succ_of_lt hy, halike.mono hle⟩
    · simpa using hrk.mono hle

/-- Two records that correspond to nothing else get members that are alike. -/
theorem addMember (h : s.Alike p t) {r k : RecordId} (hsole : p.Sole r k)
    (name : String) {m n : Member} (hm : m.Alike p n) :
    { s with records := s.records.modify r (·.add name m) }.Alike p
      { t with records := t.records.modify k (·.add name n) } where
  cell := h.cell
  record := by
    intro x y hxy
    obtain ⟨hx, hy, halike⟩ := h.record hxy
    simp only [record_modify, Array.size_modify]
    refine ⟨hx, hy, ?_⟩
    by_cases heq : r = x
    · have hk : k = y := ((hsole x y hxy).1 heq.symm).symm
      rw [if_pos ⟨heq, hx⟩, if_pos ⟨hk, hy⟩]
      exact halike.add name hm
    · have hk : k ≠ y := fun hk => heq ((hsole x y hxy).2 hk.symm).symm
      rw [if_neg fun hand => heq hand.1, if_neg fun hand => hk hand.1]
      exact halike

/-- Records that have just been made correspond to nothing else. -/
theorem sole_addRecord (h : s.Alike p t) :
    (p.addRecord s.records.size t.records.size).Sole s.records.size t.records.size := by
  rintro x y (hxy | ⟨rfl, rfl⟩)
  · obtain ⟨hx, hy, -⟩ := h.record hxy
    exact iff_of_false (Nat.ne_of_lt hx) (Nat.ne_of_lt hy)
  · exact iff_of_true rfl rfl

end Store.Alike

namespace LazyArray

variable {R : CellId → CellId → Prop} {a b : LazyArray} (hfirst : a.first = b.first)
  (hcells : List.Forall₂ R a.cells.toList b.cells.toList)

include hfirst hcells

theorem last_eq : a.last = b.last := by
  have hsize : a.cells.size = b.cells.size := by simpa using hcells.length_eq
  simp only [last, size, hfirst, hsize]

/-- At each index there are cells that are related, or none. -/
theorem cellAt?_rel (index : Int64) : Option.Rel R (a.cellAt? index) (b.cellAt? index) := by
  have hget (i : Nat) : Option.Rel R a.cells[i]? b.cells[i]? := by
    rw [← Array.getElem?_toList, ← Array.getElem?_toList]
    generalize a.cells.toList = cs at hcells
    generalize b.cells.toList = ds at hcells
    induction hcells generalizing i with
    | nil => exact .none
    | cons hcd _ ih =>
      cases i with
      | zero => exact .some hcd
      | succ i => exact ih i
  unfold cellAt?
  rw [hfirst]
  split
  · split
    · exact hget _
    · exact .none
  · exact .none

end LazyArray

/-- Numbers, strings and truth values refer to nothing. -/
def Payload.IsScalar : Payload → Prop
  | .number _ | .text _ | .truth _ => True
  | _ => False

/-- What one can tell of two values without looking into any place: they are of the same type and
    defined at the same place, and scalars are the same. -/
structure Value.Same (v w : Value) : Prop where
  typeName : v.typeName = w.typeName
  location : v.location = w.location
  path : v.path = w.path
  scalar : v.payload.IsScalar ∨ w.payload.IsScalar → v.payload = w.payload

namespace Value.Same

variable {u v w : Value}

theorem symm (h : v.Same w) : w.Same v :=
  ⟨h.typeName.symm, h.location.symm, h.path.symm, fun hs => (h.scalar hs.symm).symm⟩

theorem trans (huv : u.Same v) (hvw : v.Same w) : u.Same w where
  typeName := huv.typeName.trans hvw.typeName
  location := huv.location.trans hvw.location
  path := huv.path.trans hvw.path
  scalar := by
    rintro (hu | hw)
    · have heq := huv.scalar (.inl hu)
      exact heq.trans (hvw.scalar (.inl (heq ▸ hu)))
    · have heq := hvw.scalar (.inr hw)
      exact (huv.scalar (.inr (heq ▸ hw))).trans heq

end Value.Same

theorem Value.Alike.same {p : Pairing} {v w : Value} (h : v.Alike p w) : v.Same w where
  typeName := h.typeName_eq
  location := h.location
  path := h.path
  scalar hs := by
    obtain ⟨x, l, path⟩ := v
    obtain ⟨y, l', path'⟩ := w
    cases h.payload with
    | number | text | truth => rfl
    | _ => exact (hs.elim id id).elim

end NetDesc
