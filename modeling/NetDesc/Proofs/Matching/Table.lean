import Mathlib.Order.PropInstances
import NetDesc.Store.Access

namespace NetDesc

/-- The tables of a store. -/
inductive Table where
  | cell
  | record
  | node
  | network
  | action
deriving DecidableEq

/-- What stands in a table. -/
abbrev Table.Entry : Table → Type
  | cell => Cell
  | record => Record
  | node => Node
  | network => Network
  | action => Action

namespace Store

def table (s : Store) : (T : Table) → Array T.Entry
  | .cell => s.cells
  | .record => s.records
  | .node => s.nodes
  | .network => s.networks
  | .action => s.actions

/-- The store with one more entry in a table. -/
def push (s : Store) : (T : Table) → T.Entry → Store
  | .cell, c => { s with cells := s.cells.push c }
  | .record, r => { s with records := s.records.push r }
  | .node, n => { s with nodes := s.nodes.push n }
  | .network, n => { s with networks := s.networks.push n }
  | .action, a => { s with actions := s.actions.push a }

/-- The store with another entry at one place of a table. -/
def modify (s : Store) : (T : Table) → Nat → (T.Entry → T.Entry) → Store
  | .cell, i, f => { s with cells := s.cells.modify i f }
  | .record, i, f => { s with records := s.records.modify i f }
  | .node, i, f => { s with nodes := s.nodes.modify i f }
  | .network, i, f => { s with networks := s.networks.modify i f }
  | .action, i, f => { s with actions := s.actions.modify i f }

section Tables

variable (s : Store) {T U : Table}

theorem table_push_self (x : T.Entry) : (s.push T x).table T = (s.table T).push x := by
  cases T <;> rfl

theorem table_push_of_ne (h : U ≠ T) (x : T.Entry) : (s.push T x).table U = s.table U := by
  cases T <;> cases U <;> first | rfl | exact absurd rfl h

@[simp]
theorem push_printed (x : T.Entry) : (s.push T x).printed = s.printed := by
  cases T <;> rfl

theorem table_modify_self (i : Nat) (f : T.Entry → T.Entry) :
    (s.modify T i f).table T = (s.table T).modify i f := by
  cases T <;> rfl

theorem table_modify_of_ne (h : U ≠ T) (i : Nat) (f : T.Entry → T.Entry) :
    (s.modify T i f).table U = s.table U := by
  cases T <;> cases U <;> first | rfl | exact absurd rfl h

@[simp]
theorem modify_printed (i : Nat) (f : T.Entry → T.Entry) :
    (s.modify T i f).printed = s.printed := by
  cases T <;> rfl

end Tables

end Store

/-- Which places of the tables of one store correspond to which of another, one to one. Runs that
    do the same put what they make in different places. A matching grows as they go on and never
    forgets anything. -/
def Matching : Type :=
  Table → Nat → Nat → Prop

namespace Matching

instance : PartialOrder Matching :=
  inferInstanceAs (PartialOrder (Table → Nat → Nat → Prop))

instance : OrderBot Matching :=
  inferInstanceAs (OrderBot (Table → Nat → Nat → Prop))

variable (m : Matching) (T : Table) (P : Nat → Nat → Prop)

/-- More places of one table correspond. -/
def extend : Matching :=
  fun U i j => m U i j ∨ U = T ∧ P i j

theorem le_extend : m ≤ m.extend T P :=
  fun _ _ _ h => .inl h

variable {m T P} {i j : Nat}

theorem extend_of_new (h : P i j) : m.extend T P T i j :=
  .inr ⟨rfl, h⟩

@[simp]
theorem extend_self : m.extend T P T i j ↔ m T i j ∨ P i j := by
  simp [extend]

theorem extend_of_ne {U : Table} (h : U ≠ T) : m.extend T P U = m U := by
  funext i j
  simp [extend, h]

/-- The next places of one table correspond. -/
def next (m : Matching) (T : Table) (s t : Store) : Matching :=
  m.extend T fun i j => i = (s.table T).size ∧ j = (t.table T).size

theorem le_next (m : Matching) (T : Table) (s t : Store) : m ≤ m.next T s t :=
  m.le_extend T _

theorem next_new (m : Matching) (T : Table) (s t : Store) :
    m.next T s t T (s.table T).size (t.table T).size :=
  extend_of_new ⟨rfl, rfl⟩

end Matching

/-- Places of two arrays that correspond, one to one, hold what is related by `R`. -/
structure Paired {α β : Type} (m : Nat → Nat → Prop) (R : α → β → Prop) (xs : Array α)
    (ys : Array β) : Prop where
  entry : ∀ {i j}, m i j → ∃ x y, xs[i]? = some x ∧ ys[j]? = some y ∧ R x y
  unique : ∀ {i j k l}, m i j → m k l → (i = k ↔ j = l)

namespace Paired

variable {α β : Type} {m : Nat → Nat → Prop} {R : α → β → Prop} {xs us : Array α} {ys vs : Array β}
  {i j : Nat}

theorem none (R : α → β → Prop) (xs : Array α) (ys : Array β) :
    Paired (fun _ _ => False) R xs ys :=
  ⟨nofun, nofun⟩

theorem imp {R' : α → β → Prop} (h : Paired m R xs ys) (hR : ∀ x y, R x y → R' x y) :
    Paired m R' xs ys := by
  refine ⟨fun hij => ?_, h.unique⟩
  obtain ⟨x, y, hx, hy, hxy⟩ := h.entry hij
  exact ⟨x, y, hx, hy, hR x y hxy⟩

theorem getD (h : Paired m R xs ys) (hij : m i j) (x : α) (y : β) :
    R (xs.getD i x) (ys.getD j y) := by
  obtain ⟨x', y', hx, hy, hxy⟩ := h.entry hij
  simpa [Array.getD_eq_getD_getElem?, hx, hy] using hxy

theorem lt_left (h : Paired m R xs ys) (hij : m i j) : i < xs.size := by
  obtain ⟨x, y, hx, -, -⟩ := h.entry hij
  obtain ⟨hi, -⟩ := Array.getElem?_eq_some_iff.1 hx
  exact hi

theorem lt_right (h : Paired m R xs ys) (hij : m i j) : j < ys.size := by
  obtain ⟨x, y, -, hy, -⟩ := h.entry hij
  obtain ⟨hj, -⟩ := Array.getElem?_eq_some_iff.1 hy
  exact hj

/-- Places that are appended correspond among each other. -/
theorem append (h : Paired m R xs ys) {P : Nat → Nat → Prop} (hnew : Paired P R us vs) :
    Paired (fun i j => m i j ∨ ∃ k l, i = xs.size + k ∧ j = ys.size + l ∧ P k l) R (xs ++ us)
      (ys ++ vs) := by
  refine ⟨?_, ?_⟩
  · intro i j hij
    rcases hij with hij | ⟨k, l, hi, hj, hkl⟩
    · obtain ⟨x, y, hx, hy, hxy⟩ := h.entry hij
      refine ⟨x, y, ?_, ?_, hxy⟩
      · rw [Array.getElem?_append_left (h.lt_left hij), hx]
      · rw [Array.getElem?_append_left (h.lt_right hij), hy]
    · obtain ⟨x, y, hx, hy, hxy⟩ := hnew.entry hkl
      refine ⟨x, y, ?_, ?_, hxy⟩
      · rw [hi, Array.getElem?_append_right (by omega), Nat.add_sub_cancel_left, hx]
      · rw [hj, Array.getElem?_append_right (by omega), Nat.add_sub_cancel_left, hy]
  · intro i j i' j' hij hij'
    rcases hij with hij | ⟨k, l, hi, hj, hkl⟩ <;>
      rcases hij' with hij' | ⟨k', l', hi', hj', hkl'⟩
    · exact h.unique hij hij'
    · have hlt := h.lt_left hij
      have hlt' := h.lt_right hij
      omega
    · have hlt := h.lt_left hij'
      have hlt' := h.lt_right hij'
      omega
    · have hunique := hnew.unique hkl hkl'
      omega

theorem push (h : Paired m R xs ys) {x : α} {y : β} (hxy : R x y) :
    Paired (fun i j => m i j ∨ i = xs.size ∧ j = ys.size) R (xs.push x) (ys.push y) := by
  have hnew : Paired (fun k l => k = 0 ∧ l = 0) R #[x] #[y] := by
    refine ⟨fun hkl => ⟨x, y, ?_, ?_, hxy⟩, fun hkl hkl' => ?_⟩
    · simp [hkl.1]
    · simp [hkl.2]
    · omega
  have happend := h.append hnew
  simpa using happend

/-- Related changes at places that correspond. -/
theorem modify (h : Paired m R xs ys) (hij : m i j) {f : α → α} {g : β → β}
    (hfg : ∀ x y, R x y → R (f x) (g y)) : Paired m R (xs.modify i f) (ys.modify j g) := by
  refine ⟨fun {k l} hkl => ?_, h.unique⟩
  obtain ⟨x, y, hx, hy, hxy⟩ := h.entry hkl
  have hiff := h.unique hij hkl
  by_cases hik : i = k
  · refine ⟨f x, g y, ?_, ?_, hfg x y hxy⟩
    · simp [Array.getElem?_modify, hik, hx]
    · simp [Array.getElem?_modify, hiff.1 hik, hy]
  · have hjl : j ≠ l := fun hjl => hik (hiff.2 hjl)
    refine ⟨x, y, ?_, ?_, hxy⟩
    · simp [Array.getElem?_modify, hik, hx]
    · simp [Array.getElem?_modify, hjl, hy]

end Paired

end NetDesc
