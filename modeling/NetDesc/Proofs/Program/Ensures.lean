import NetDesc.Program
import NetDesc.Proofs.Store.WellFormed

namespace NetDesc

namespace Call

/-- The calls that may be made: they refer to what is there. -/
def Valid (s : Store) : Call → Prop
  | perform task => task.Valid s
  | force c => c < s.cells.size
  | render _ v => v.Valid s
  | tie work visited => ∀ o ∈ work ++ visited, o.Valid s

/-- What an answer is promised to be in the store that it comes with. No input that waits for a
    cell is tied by forcing the cell. -/
def Answered (s t : Store) : (c : Call) → c.Reply → Prop
  | perform _ => fun v : Value => v.Valid t
  | force c => fun v : Value => v.Valid t ∧ (t.cell c).progress = .finished v ∧
    ∀ n < s.nodes.size, (s.node n).pendingInput = some c → (t.node n).pendingInput = some c
  | render _ _ => fun _ => True
  | tie work visited => fun found : List Object =>
    t.Discovers work visited found ∧ ∀ o ∈ found, o.Valid t ∧
      ∀ id, o = .node id → o ∉ visited → (t.node id).pendingInput = none

end Call

namespace Program

variable {α β : Type} {base : Nat} {s : Store}

/-- Every step is allowed, every call is good, and the result satisfies `P`, whatever the calls
    answer as long as they keep their own promise. A call seals the records that are there. -/
def Meets (P : Nat → Store → α → Prop) : Program α → Nat → Store → Prop
  | done result, base, s => P base s result
  | raise _, _, _ => True
  | access a next, base, s =>
    a.Allowed base s ∧ (next (a.perform s).1).Meets P base (a.perform s).2
  | call c next, _, s =>
    c.Valid s ∧ ∀ (t : Store) (reply : c.Reply), t.WellFormed t.records.size →
      s.Grows s.records.size t → c.Answered s t reply → (next reply).Meets P t.records.size t

theorem Meets.imp {P Q : Nat → Store → α → Prop} {p : Program α} (hp : p.Meets P base s)
    (hPQ : ∀ b t a, P b t a → Q b t a) : p.Meets Q base s := by
  induction p generalizing base s with
  | done result => exact hPQ _ _ _ hp
  | raise e => trivial
  | access a next ih => exact ⟨hp.1, ih _ hp.2⟩
  | call c next ih =>
    refine ⟨hp.1, fun t reply hwf hgrows hreply => ?_⟩
    exact ih _ (hp.2 t reply hwf hgrows hreply)

theorem Meets.bind {Q : Nat → Store → β → Prop} {p : Program α} {f : α → Program β}
    (hp : p.Meets (fun b t a => (f a).Meets Q b t) base s) : (p.bind f).Meets Q base s := by
  induction p generalizing base s with
  | done result => exact hp
  | raise e => trivial
  | access a next ih => exact ⟨hp.1, ih _ hp.2⟩
  | call c next ih =>
    refine ⟨hp.1, fun t reply hwf hgrows hreply => ?_⟩
    exact ih _ (hp.2 t reply hwf hgrows hreply)

/-- From a well-formed store the program only gets to well-formed stores that grew out of it, and
    `P` says what else is known of the result. The first argument of `P` is the number of records
    that are sealed by then. -/
def Ensures (p : Program α) (base : Nat) (s : Store) (P : Nat → Store → α → Prop) : Prop :=
  s.WellFormed base →
    p.Meets (fun b t a => t.WellFormed b ∧ s.Grows base t ∧ base ≤ b ∧ P b t a) base s

/-- The program gives a good value. -/
def GivesValue (p : Program Value) (base : Nat) (s : Store) : Prop :=
  p.Ensures base s fun _ t v => v.Valid t

variable {P : Nat → Store → α → Prop} {Q : Nat → Store → β → Prop}

namespace Ensures

theorem pure {a : α} (ha : P base s a) : (Pure.pure a : Program α).Ensures base s P :=
  fun hs => ⟨hs, .refl base s, Nat.le_refl base, ha⟩

theorem raise (e : EvalError) : (Program.raise e : Program α).Ensures base s P :=
  fun _ => trivial

theorem ofExcept {x : Except EvalError α} (hx : ∀ a, x = .ok a → P base s a) :
    (Program.ofExcept x).Ensures base s P := by
  cases x with
  | ok a => exact pure (hx a rfl)
  | error e => exact raise e

/-- A check comes before what the program does with what passes it. -/
theorem check {x : Except EvalError α} {f : α → Program β}
    (hf : ∀ a, x = .ok a → (f a).Ensures base s Q) :
    (Program.ofExcept x >>= f).Ensures base s Q := by
  cases x with
  | ok a => exact hf a rfl
  | error e => exact raise e

theorem step {a : Access} {P : Nat → Store → a.Reply → Prop}
    (ha : s.WellFormed base → a.Allowed base s)
    (hP : P base (a.perform s).2 (a.perform s).1) : (Program.step a).Ensures base s P := by
  intro hs
  have hallowed := ha hs
  exact ⟨hallowed, hallowed.wellFormed hs, hallowed.grows hs, Nat.le_refl base, hP⟩

theorem call {c : Call} {P : Nat → Store → c.Reply → Prop} (hc : c.Valid s)
    (hP : ∀ t reply, s.Grows s.records.size t → c.Answered s t reply → P t.records.size t reply) :
    (Program.call c done).Ensures base s P := by
  intro hs
  refine ⟨hc, fun t reply hwf hgrows hreply => ⟨hwf, hgrows.weaken hs.base_le, ?_, ?_⟩⟩
  · exact Nat.le_trans hs.base_le hgrows.covers.records
  · exact hP t reply hgrows hreply

theorem imp {P' : Nat → Store → α → Prop} {p : Program α} (hp : p.Ensures base s P)
    (himp : ∀ b t a, t.WellFormed b → s.Grows base t → base ≤ b → P b t a → P' b t a) :
    p.Ensures base s P' := by
  intro hs
  refine (hp hs).imp ?_
  rintro b t a ⟨hwf, hgrows, hle, ha⟩
  exact ⟨hwf, hgrows, hle, himp b t a hwf hgrows hle ha⟩

/-- What the second program has to ensure starts from where the first one may have ended. -/
theorem bind {p : Program α} {f : α → Program β} (hp : p.Ensures base s P)
    (hf : ∀ b t a, t.WellFormed b → s.Grows base t → base ≤ b → P b t a →
      (f a).Ensures b t Q) :
    (p >>= f).Ensures base s Q := by
  intro hs
  refine Meets.bind ((hp hs).imp ?_)
  rintro b t a ⟨hwf, hgrows, hle, ha⟩
  refine (hf b t a hwf hgrows hle ha hwf).imp ?_
  rintro b' u a' ⟨hwf', hgrows', hle', ha'⟩
  exact ⟨hwf', hgrows.trans hgrows' hle, Nat.le_trans hle hle', ha'⟩

/-- A program may be judged knowing that it starts from a well-formed store. -/
theorem of_wellFormed {p : Program α} (hp : s.WellFormed base → p.Ensures base s P) :
    p.Ensures base s P :=
  fun hs => hp hs hs

end Ensures

section Steps

theorem readCell_ensures (c : CellId) :
    (readCell c).Ensures base s fun b t reply => b = base ∧ t = s ∧ reply = s.cell c :=
  .step (fun _ => trivial) ⟨rfl, rfl, rfl⟩

theorem readRecord_ensures (r : RecordId) :
    (readRecord r).Ensures base s fun b t reply => b = base ∧ t = s ∧ reply = s.record r :=
  .step (fun _ => trivial) ⟨rfl, rfl, rfl⟩

theorem readNode_ensures (n : NodeId) :
    (readNode n).Ensures base s fun b t reply => b = base ∧ t = s ∧ reply = s.node n :=
  .step (fun _ => trivial) ⟨rfl, rfl, rfl⟩

theorem readNetwork_ensures (n : NetworkId) :
    (readNetwork n).Ensures base s fun b t reply => b = base ∧ t = s ∧ reply = s.network n :=
  .step (fun _ => trivial) ⟨rfl, rfl, rfl⟩

theorem children_ensures (o : Object) :
    (children o).Ensures base s fun b t reply => b = base ∧ t = s ∧ reply = s.children o :=
  .step (fun _ => trivial) ⟨rfl, rfl, rfl⟩

/-- What a name stands for in a scope is a cell that is there. -/
theorem find_ensures (scope : RecordId) (name : String) :
    (find scope name).Ensures base s fun _ t found =>
      ∀ m, found = some m → m.cell < t.cells.size :=
  .of_wellFormed fun hs => .step (fun _ => trivial) fun _ hm => hs.find?_valid hm

theorem newCell_ensures {c : Cell} (hc : c.Valid s) (hfresh : c.Fresh) :
    (newCell c).Ensures base s fun b t id =>
      b = base ∧ id < t.cells.size ∧ t.records.size = s.records.size :=
  .step (fun _ => ⟨hc, hfresh⟩) ⟨rfl, by simp [Access.perform], rfl⟩

theorem ready_ensures {v : Value} (hv : v.Valid s) :
    (newCell (.ready v)).Ensures base s fun b t id =>
      b = base ∧ id < t.cells.size ∧ t.records.size = s.records.size :=
  newCell_ensures (Cell.ready_valid hv) (Cell.ready_fresh v)

/-- A new record is open: it is not among the sealed ones. -/
theorem newRecord_ensures {parent : Option RecordId}
    (hparent : ∀ p, parent = some p → p < s.records.size) :
    (newRecord parent).Ensures base s fun b t id => b ≤ id ∧ id < t.records.size :=
  .of_wellFormed fun hs => .step (fun _ => hparent) ⟨hs.base_le, by simp [Access.perform]⟩

theorem addMember_ensures {record : RecordId} (name : String) {m : Member} (hopen : base ≤ record)
    (hm : m.cell < s.cells.size) :
    (addMember record name m).Ensures base s fun b _ _ => b = base :=
  .step (fun _ => ⟨hopen, hm⟩) rfl

theorem addValue_ensures {record : RecordId} (name : String) {v : Value} (hopen : base ≤ record)
    (hv : v.Valid s) : (addValue record name v).Ensures base s fun b _ _ => b = base := by
  refine .bind (ready_ensures hv) ?_
  rintro b t id - - - ⟨rfl, hid, -⟩
  exact addMember_ensures name hopen hid

theorem force_ensures {c : CellId} (hc : c < s.cells.size) :
    (force c).Ensures base s fun b t v =>
      b = t.records.size ∧ s.Grows s.records.size t ∧ v.Valid t ∧
        (t.cell c).progress = .finished v ∧
        ∀ n < s.nodes.size, (s.node n).pendingInput = some c → (t.node n).pendingInput = some c :=
  .call hc fun _ _ hgrows hreply => ⟨rfl, hgrows, hreply⟩

theorem evaluate_givesValue (e : Expr) {scope : RecordId} (hscope : scope < s.records.size)
    (path : String) : (evaluate e scope path).GivesValue base s :=
  .call hscope fun _ _ _ hreply => hreply

theorem evaluatePart_givesValue (e : Expr) {scope : RecordId} (hscope : scope < s.records.size)
    (path id : String) : (evaluatePart e scope path id).GivesValue base s :=
  evaluate_givesValue e hscope (joinPath path id)

theorem render_ensures (spec : FormatSpec) {v : Value} (hv : v.Valid s) :
    (render spec v).Ensures base s fun _ _ _ => True :=
  .call hv fun _ _ _ _ => trivial

theorem suspend_ensures (e : Expr) {scope : RecordId} (hscope : scope < s.records.size)
    (path : String) :
    (suspend e scope path).Ensures base s fun b t id =>
      b = base ∧ id < t.cells.size ∧ t.records.size = s.records.size :=
  newCell_ensures (Cell.suspended_valid _ _ hscope (by intro v h; cases h))
    (Cell.suspended_fresh _ _ _)

end Steps

end Program

end NetDesc
