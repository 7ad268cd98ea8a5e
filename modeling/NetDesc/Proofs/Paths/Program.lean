import NetDesc.Members
import NetDesc.Proofs.Paths.Relation

namespace NetDesc

namespace Program

variable {α β : Type}

/-- The programs do the same on stores that agree, and call for computations and cells only.
    Their results are related by `Q`. They fail for causes of the same kind; a message may show a
    path. -/
inductive Agrees (Q : α → α → Prop) : Program α → Program α → Prop
  | done {a b : α} (h : Q a b) : Agrees Q (.done a) (.done b)
  | raise {e e' : EvalError} (h : e.code = e'.code) : Agrees Q (.raise e) (.raise e')
  | access {a a' : Access} {next : a.Reply → Program α} {next' : a'.Reply → Program α}
      (hstore : ∀ s t, s.Agrees t → (a.perform s).2.Agrees (a'.perform t).2)
      (hnext : ∀ s t, s.Agrees t →
        Agrees Q (next (a.perform s).1) (next' (a'.perform t).1)) :
      Agrees Q (.access a next) (.access a' next')
  | perform {k l : Task} (h : k.Agrees l) {next : (Call.perform k).Reply → Program α}
      {next' : (Call.perform l).Reply → Program α}
      (hnext : ∀ v w : Value, v.Agrees w → Agrees Q (next v) (next' w)) :
      Agrees Q (.call (.perform k) next) (.call (.perform l) next')
  | force (cell : CellId) {next next' : (Call.force cell).Reply → Program α}
      (hnext : ∀ v w : Value, v.Agrees w → Agrees Q (next v) (next' w)) :
      Agrees Q (.call (.force cell) next) (.call (.force cell) next')

/-- Both programs give values, which agree. -/
abbrev AgreesOnValue (p q : Program Value) : Prop :=
  p.Agrees Value.Agrees q

namespace Agrees

variable {Q : α → α → Prop} {R : β → β → Prop} {p q : Program α} {k l : α → Program β}

theorem pure {a b : α} (h : Q a b) : (Pure.pure a : Program α).Agrees Q (Pure.pure b) :=
  .done h

theorem bind (hpq : p.Agrees Q q) (hkl : ∀ a b, Q a b → (k a).Agrees R (l b)) :
    (p >>= k).Agrees R (q >>= l) := by
  induction hpq with
  | done h => exact hkl _ _ h
  | raise h => exact .raise h
  | access hstore _ ih => exact .access hstore ih
  | perform h _ ih => exact .perform h ih
  | force cell _ ih => exact .force cell ih

theorem bind_eq (hpq : p.Agrees Eq q) (hkl : ∀ a, (k a).Agrees R (l a)) :
    (p >>= k).Agrees R (q >>= l) :=
  hpq.bind fun a _ h => h ▸ hkl a

/-- Both programs take the same branch. -/
theorem ite {c d : Prop} [Decidable c] [Decidable d] (hcd : c ↔ d) {p p' q q' : Program α}
    (hpq : p.Agrees Q q) (hpq' : p'.Agrees Q q') :
    (if c then p else p').Agrees Q (if d then q else q') := by
  by_cases hc : c
  · rwa [if_pos hc, if_pos (hcd.1 hc)]
  · rwa [if_neg hc, if_neg (mt hcd.2 hc)]

/-- The same check comes before what the programs do with what passes it. -/
theorem check (x : Except EvalError α) (hkl : ∀ a, (k a).Agrees R (l a)) :
    (Program.ofExcept x >>= k).Agrees R (Program.ofExcept x >>= l) := by
  cases x with
  | ok a => exact hkl a
  | error e => exact .raise rfl

end Agrees

section Steps

theorem readCell_agrees (id : CellId) :
    (readCell id).Agrees (fun c d => c.location = d.location) (readCell id) :=
  .access (fun _ _ h => h) fun _ _ h => .done (h.cell id).location

theorem newCell_agrees {c d : Cell} (hcd : c.Agrees d) : (newCell c).Agrees Eq (newCell d) :=
  .access (fun _ _ h => h.newCell hcd) fun _ _ h => .done h.cells

theorem readRecord_agrees (id : RecordId) : (readRecord id).Agrees Eq (readRecord id) :=
  .access (fun _ _ h => h) fun _ _ h => .done (h.record_eq id)

theorem find_agrees (scope : RecordId) (name : String) :
    (find scope name).Agrees Eq (find scope name) :=
  .access (fun _ _ h => h) fun _ _ h => .done (h.find?_eq scope name)

theorem newRecord_agrees (parent : Option RecordId) :
    (newRecord parent).Agrees Eq (newRecord parent) := by
  refine .access (fun s t h => ?_) fun s t h => .done ?_
  · have henclosing : Access.enclosing s parent = Access.enclosing t parent := by
      cases parent with
      | none => rfl
      | some parent => exact congrArg (parent :: ·) (congrArg _ (h.record_eq parent))
    simp only [Access.perform, henclosing]
    exact h.withRecords (·.push { enclosing := Access.enclosing t parent })
  · exact congrArg Array.size h.records

theorem addMember_agrees (record : RecordId) (name : String) (m : Member) :
    (addMember record name m).Agrees Eq (addMember record name m) :=
  .access (fun _ _ h => h.withRecords (·.modify record (·.add name m))) fun _ _ _ => .done rfl

theorem readNetwork_agrees (id : NetworkId) : (readNetwork id).Agrees Eq (readNetwork id) :=
  .access (fun _ _ h => h) fun _ _ h => .done (h.network_eq id)

theorem evaluate_agrees (e : Expr) (scope : RecordId) (path path' : String) :
    (evaluate e scope path).AgreesOnValue (evaluate e scope path') :=
  .perform (.evaluate e scope path path') fun _ _ h => .done h

theorem evaluatePart_agrees (e : Expr) (scope : RecordId) (path path' id id' : String) :
    (evaluatePart e scope path id).AgreesOnValue (evaluatePart e scope path' id') :=
  evaluate_agrees e scope _ _

theorem force_agrees (cell : CellId) : (force cell).AgreesOnValue (force cell) :=
  .force cell fun _ _ h => .done h

theorem suspend_agrees (e : Expr) (scope : RecordId) (path path' : String) :
    (suspend e scope path).Agrees Eq (suspend e scope path') :=
  newCell_agrees (.suspended (.evaluate e scope path path') e.location path path')

theorem ready_agrees {v w : Value} (h : v.Agrees w) :
    (newCell (.ready v)).Agrees Eq (newCell (.ready w)) :=
  newCell_agrees (.ready h)

theorem addValue_agrees (record : RecordId) (name : String) {v w : Value} (h : v.Agrees w) :
    (addValue record name v).Agrees Eq (addValue record name w) := by
  unfold addValue
  rw [h.location]
  exact .bind_eq (ready_agrees h) fun _ => addMember_agrees record name _

end Steps

theorem forceFound_agrees (found : Option CellId) (missing : EvalError) :
    (forceFound found missing).AgreesOnValue (forceFound found missing) := by
  cases found with
  | some cell => exact force_agrees cell
  | none => exact .raise rfl

theorem lookup_agrees (scope : RecordId) (name : String) (location : Location) :
    (lookup scope name location).AgreesOnValue (lookup scope name location) :=
  .bind_eq (find_agrees scope name) fun _ => forceFound_agrees _ _

theorem fieldCell_agrees (fields : RecordId) (name : String) :
    (fieldCell fields name).Agrees Eq (fieldCell fields name) :=
  .bind_eq (readRecord_agrees fields) fun _ => .pure rfl

theorem networkMember_agrees (network : NetworkId) (name : String) :
    (networkMember network name).Agrees Eq (networkMember network name) := by
  refine .bind_eq (readNetwork_agrees network) fun n => ?_
  cases n.find? name with
  | some node => exact .bind_eq (ready_agrees (.refl _)) fun _ => .pure rfl
  | none => exact fieldCell_agrees n.fields name

theorem memberOf_agrees {v w : Value} (h : v.Agrees w) (name : String) (location : Location) :
    (memberOf v name location).AgreesOnValue (memberOf w name location) := by
  have hmember {find : Program (Option CellId)} (hfind : find.Agrees Eq find) :
      (find >>= fun found => forceFound found (.unknownIdentifier name location)).AgreesOnValue
        (find >>= fun found => forceFound found (.unknownIdentifier name location)) :=
    .bind_eq hfind fun _ => forceFound_agrees _ _
  obtain ⟨x, place, path⟩ := v
  obtain ⟨y, place', path'⟩ := w
  cases h.payload with
  | same x =>
    cases x with
    | record scope => exact hmember (.bind_eq (find_agrees scope name) fun _ => .pure rfl)
    | object o =>
      cases o with
      | network id => exact hmember (networkMember_agrees id name)
      | _ => exact .raise rfl
    | _ => exact .raise rfl
  | function h => exact .raise rfl

end Program

end NetDesc
