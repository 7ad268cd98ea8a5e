import NetDesc.Run
import NetDesc.Proofs.Scoping.Nesting

namespace NetDesc

namespace Access

/-- The steps that leave only placed things in the store. -/
def Fits (S : Scoping) (base : Nat) (s : Store) : Access → Prop
  | newCell c => ∀ v, c.progress = .finished v → v.Placed S base s
  | newNode n => ∀ c, n.pendingInput = some c → s.CellPlaced S base c
  | newNetwork n => n.fields < base ∧ s.MembersPlaced S base n.fields
  | _ => True

variable {S : Scoping} {base : Nat} {s : Store}

theorem Fits.settled {a : Access} (hs : s.Settled S base) (ha : a.Fits S base s)
    (hext : s.Extends base (a.perform s).2) : (a.perform s).2.Settled S base := by
  have hlater {c : CellId} {v : Value} (h : (s.cell c).progress = .finished v) :=
    (hs.value c v h).later hext (Nat.le_refl base)
  refine ⟨Nat.le_trans hs.base_le hext.covers.records, fun c v hv => ?_, fun n c hc => ?_,
    fun n hn => ?_⟩
  · cases a with
    | newCell d =>
      simp only [perform, Store.cell_push] at hv
      split at hv
      · exact (ha v hv).later hext (Nat.le_refl base)
      · exact hlater hv
    | rename o name => cases o <;> exact hlater hv
    | _ => exact hlater hv
  · have hold {n : NodeId} (h : (s.node n).pendingInput = some c) :=
      (hs.pendingInput n c h).later hext (Nat.le_refl base)
    cases a with
    | newNode m =>
      simp only [perform, Store.node_push] at hc
      split at hc
      · exact (ha c hc).later hext (Nat.le_refl base)
      · exact hold hc
    | tieInput node input =>
      simp only [perform, Store.node_modify] at hc
      split at hc
      · cases hc
      · exact hold hc
    | rename o name =>
      cases o with
      | node id =>
        simp only [perform, Store.node_modify] at hc
        split at hc
        · exact hold (n := n) hc
        · exact hold hc
      | _ => exact hold hc
    | _ => exact hold hc
  · have hold (h : n < s.networks.size) : (s.network n).fields < base ∧
        (a.perform s).2.MembersPlaced S base (s.network n).fields :=
      ⟨(hs.network n h).1, (hs.network n h).2.later hext (Nat.le_refl base) (hs.network n h).1⟩
    cases a with
    | newNetwork m =>
      simp only [perform, Store.network_push]
      split
      · exact ⟨ha.1, ha.2.later hext (Nat.le_refl base) ha.1⟩
      · next hne =>
        refine hold (Nat.lt_of_le_of_ne (Nat.le_of_lt_succ ?_) hne)
        simpa [perform] using hn
    | rename o name => cases o <;> exact hold hn
    | _ => exact hold hn

end Access

namespace Call

variable (S : Scoping) (base : Nat) (s : Store)

/-- The calls that only refer to what is placed. -/
def Placed : Call → Prop
  | perform (.constant v) => v.Placed S base s
  | perform task => task.Placed S base s
  | force c => s.CellPlaced S base c
  | render _ v => v.Placed S base s
  | tie _ _ => True

/-- Values that are answered are placed. -/
def Answers : (c : Call) → c.Reply → Prop
  | perform _ => fun v : Value => v.Placed S base s
  | force _ => fun v : Value => v.Placed S base s
  | render _ _ => fun _ => True
  | tie _ _ => fun _ => True

end Call

namespace Program

variable {α β : Type} {S : Scoping} {carryOut : (c : Call) → Store → Outcome c.Reply} {base : Nat}
  {s : Store}

/-- Every step fits, every call is placed, and the result satisfies `P`, as long as placed calls
    are given placed answers. That the store grows as it should is taken for granted here. -/
def Keeps (S : Scoping) (carryOut : (c : Call) → Store → Outcome c.Reply)
    (P : Nat → Store → α → Prop) : Program α → Nat → Store → Prop
  | done result, base, s => P base s result
  | raise _, _, _ => True
  | access a next, base, s =>
    a.Fits S base s ∧ (s.Extends base (a.perform s).2 →
      (next (a.perform s).1).Keeps S carryOut P base (a.perform s).2)
  | call c next, _, s =>
    c.Placed S s.records.size s ∧ ∀ (t : Store) (reply : c.Reply), carryOut c s = .value reply t →
      t.Settled S t.records.size → s.Extends s.records.size t →
        c.Answers S t.records.size t reply → (next reply).Keeps S carryOut P t.records.size t

theorem Keeps.imp {P Q : Nat → Store → α → Prop} {p : Program α} (hp : p.Keeps S carryOut P base s)
    (hPQ : ∀ b t a, P b t a → Q b t a) : p.Keeps S carryOut Q base s := by
  induction p generalizing base s with
  | done result => exact hPQ _ _ _ hp
  | raise e => trivial
  | access a next ih => exact ⟨hp.1, fun hext => ih _ (hp.2 hext)⟩
  | call c next ih =>
    refine ⟨hp.1, fun t reply hreply hsettled hext hanswer => ?_⟩
    exact ih _ (hp.2 t reply hreply hsettled hext hanswer)

theorem Keeps.bind {Q : Nat → Store → β → Prop} {p : Program α} {f : α → Program β}
    (hp : p.Keeps S carryOut (fun b t a => (f a).Keeps S carryOut Q b t) base s) :
    (p.bind f).Keeps S carryOut Q base s := by
  induction p generalizing base s with
  | done result => exact hp
  | raise e => trivial
  | access a next ih => exact ⟨hp.1, fun hext => ih _ (hp.2 hext)⟩
  | call c next ih =>
    refine ⟨hp.1, fun t reply hreply hsettled hext hanswer => ?_⟩
    exact ih _ (hp.2 t reply hreply hsettled hext hanswer)

/-- From a settled store the program only gets to settled stores, and `P` says what else is known
    of the result. The first argument of `P` is the number of records that are sealed by then. -/
def Maintains (S : Scoping) (carryOut : (c : Call) → Store → Outcome c.Reply) (p : Program α)
    (base : Nat) (s : Store) (P : Nat → Store → α → Prop) : Prop :=
  s.Settled S base → p.Keeps S carryOut
    (fun b t a => t.Settled S b ∧ s.Extends base t ∧ base ≤ b ∧ P b t a) base s

variable {P : Nat → Store → α → Prop} {Q : Nat → Store → β → Prop}

namespace Maintains

theorem pure {a : α} (ha : P base s a) : (Pure.pure a : Program α).Maintains S carryOut base s P :=
  fun hs => ⟨hs, .refl base s, Nat.le_refl base, ha⟩

theorem raise (e : EvalError) : (Program.raise e : Program α).Maintains S carryOut base s P :=
  fun _ => trivial

theorem ofExcept {x : Except EvalError α} (hx : ∀ a, x = .ok a → P base s a) :
    (Program.ofExcept x).Maintains S carryOut base s P := by
  cases x with
  | ok a => exact pure (hx a rfl)
  | error e => exact raise e

/-- A check comes before what the program does with what passes it. -/
theorem check {x : Except EvalError α} {f : α → Program β}
    (hf : ∀ a, x = .ok a → (f a).Maintains S carryOut base s Q) :
    (Program.ofExcept x >>= f).Maintains S carryOut base s Q := by
  cases x with
  | ok a => exact hf a rfl
  | error e => exact raise e

theorem step {a : Access} {P : Nat → Store → a.Reply → Prop} (ha : a.Fits S base s)
    (hP : s.Extends base (a.perform s).2 → P base (a.perform s).2 (a.perform s).1) :
    (Program.step a).Maintains S carryOut base s P :=
  fun hs => ⟨ha, fun hext => ⟨ha.settled hs hext, hext, Nat.le_refl base, hP hext⟩⟩

theorem call {c : Call} {P : Nat → Store → c.Reply → Prop} (hc : c.Placed S s.records.size s)
    (hP : ∀ t reply, carryOut c s = .value reply t → s.Extends s.records.size t →
      c.Answers S t.records.size t reply → P t.records.size t reply) :
    (Program.call c done).Maintains S carryOut base s P := by
  intro hs
  refine ⟨hc, fun t reply hreply hsettled hext hanswer => ⟨hsettled, ?_, ?_, ?_⟩⟩
  · exact hext.weaken hs.base_le
  · exact Nat.le_trans hs.base_le hext.covers.records
  · exact hP t reply hreply hext hanswer

theorem imp {P' : Nat → Store → α → Prop} {p : Program α} (hp : p.Maintains S carryOut base s P)
    (himp : ∀ b t a, s.Extends base t → base ≤ b → P b t a → P' b t a) :
    p.Maintains S carryOut base s P' := by
  intro hs
  refine (hp hs).imp ?_
  rintro b t a ⟨hsettled, hext, hle, ha⟩
  exact ⟨hsettled, hext, hle, himp b t a hext hle ha⟩

/-- What the second program has to maintain starts from where the first one may have ended. -/
theorem bind {p : Program α} {f : α → Program β} (hp : p.Maintains S carryOut base s P)
    (hf : ∀ b t a, s.Extends base t → base ≤ b → P b t a →
      (f a).Maintains S carryOut b t Q) :
    (p >>= f).Maintains S carryOut base s Q := by
  intro hs
  refine Keeps.bind ((hp hs).imp ?_)
  rintro b t a ⟨hsettled, hext, hle, ha⟩
  refine (hf b t a hext hle ha hsettled).imp ?_
  rintro b' u a' ⟨hsettled', hext', hle', ha'⟩
  exact ⟨hsettled', hext.trans hext' hle, Nat.le_trans hle hle', ha'⟩

/-- Nothing is open at the end. -/
theorem closed {p : Program Value}
    (hp : p.Maintains S carryOut base s fun b t v => v.Placed S b t) :
    p.Maintains S carryOut base s fun _ t v => v.Placed S t.records.size t := by
  intro hs
  refine (hp hs).imp ?_
  rintro b t v ⟨hsettled, hext, hle, hv⟩
  exact ⟨hsettled, hext, hle, hv.later (.refl b t) hsettled.base_le⟩

/-- A program may be judged knowing that it starts from a settled store. -/
theorem of_settled {p : Program α} (hp : s.Settled S base → p.Maintains S carryOut base s P) :
    p.Maintains S carryOut base s P :=
  fun hs => hp hs hs

end Maintains

section Steps

theorem readCell_maintains (c : CellId) :
    (readCell c).Maintains S carryOut base s fun b t reply =>
      b = base ∧ t = s ∧ reply = s.cell c :=
  .step trivial fun _ => ⟨rfl, rfl, rfl⟩

theorem readRecord_maintains (r : RecordId) :
    (readRecord r).Maintains S carryOut base s fun b t reply =>
      b = base ∧ t = s ∧ reply = s.record r :=
  .step trivial fun _ => ⟨rfl, rfl, rfl⟩

theorem readNode_maintains (n : NodeId) :
    (readNode n).Maintains S carryOut base s fun b t reply =>
      b = base ∧ t = s ∧ reply = s.node n :=
  .step trivial fun _ => ⟨rfl, rfl, rfl⟩

theorem readNetwork_maintains (n : NetworkId) :
    (readNetwork n).Maintains S carryOut base s fun b t reply =>
      b = base ∧ t = s ∧ reply = s.network n :=
  .step trivial fun _ => ⟨rfl, rfl, rfl⟩

theorem find_maintains (scope : RecordId) (name : String) :
    (find scope name).Maintains S carryOut base s fun b t found =>
      b = base ∧ t = s ∧ found = s.find? scope name :=
  .step trivial fun _ => ⟨rfl, rfl, rfl⟩

/-- A cell that is made is the next one, and no record changes. -/
theorem newCell_maintains {c : Cell} (hc : ∀ v, c.progress = .finished v → v.Placed S base s) :
    (newCell c).Maintains S carryOut base s fun b t id =>
      b = base ∧ t.records = s.records ∧ id < t.cells.size ∧ (t.cell id).task = c.task :=
  .step hc fun _ => ⟨rfl, rfl, by simp [Access.perform], by simp [Access.perform]⟩

theorem ready_maintains {v : Value} (hv : v.Placed S base s) :
    (newCell (.ready v)).Maintains S carryOut base s fun b t id =>
      b = base ∧ t.records = s.records ∧ id < t.cells.size ∧ (t.cell id).task = .constant v :=
  newCell_maintains (by rintro w ⟨⟩; exact hv)

theorem suspended_maintains (task : Task) (location : Location) (path : String) :
    (newCell (.suspended task location path)).Maintains S carryOut base s fun b t id =>
      b = base ∧ t.records = s.records ∧ id < t.cells.size ∧ (t.cell id).task = task :=
  newCell_maintains (by rintro w ⟨⟩)

theorem newRecord_maintains (parent : Option RecordId) :
    (newRecord parent).Maintains S carryOut base s fun b t id =>
      b = base ∧ id = s.records.size ∧ id < t.records.size ∧
        t.record id = { enclosing := Access.enclosing s parent } :=
  .step trivial fun _ => ⟨rfl, rfl, by simp [Access.perform], by simp [Access.perform]⟩

theorem addMember_maintains {record : RecordId} (name : String) (m : Member)
    (hrecord : record < s.records.size) :
    (addMember record name m).Maintains S carryOut base s fun b t _ =>
      b = base ∧ t.cells = s.cells ∧ record < t.records.size ∧
        t.record record = (s.record record).add name m :=
  .step trivial fun _ =>
    ⟨rfl, rfl, by simpa [Access.perform] using hrecord,
      by simp [Access.perform, Store.record_modify, hrecord]⟩

theorem force_maintains {c : CellId} (hc : s.CellPlaced S base c) :
    (force c).Maintains S carryOut base s fun b t v =>
      b = t.records.size ∧ s.Extends s.records.size t ∧ v.Placed S b t :=
  .of_settled fun hs => .call (hc.later (.refl base s) hs.base_le) fun _ _ _ hext hreply =>
    ⟨rfl, hext, hreply⟩

theorem render_maintains (spec : FormatSpec) {v : Value} (hv : v.Placed S base s) :
    (render spec v).Maintains S carryOut base s fun _ _ _ => True :=
  .of_settled fun hs => .call (hv.later (.refl base s) hs.base_le) fun _ _ _ _ _ => trivial

/-- What is evaluated in a placed scope gives a placed value. -/
theorem evaluate_maintains {e : Expr} {scope : RecordId} (he : e.Placed S base s scope)
    (path : String) :
    (evaluate e scope path).Maintains S carryOut base s fun b t v =>
      b = t.records.size ∧ s.Extends s.records.size t ∧ v.Placed S b t ∧
        carryOut (.perform (.evaluate e scope path)) s = .value v t :=
  .of_settled fun hs => .call (he.later (.refl base s) hs.base_le) fun _ _ hreply hext hanswer =>
    ⟨rfl, hext, hanswer, hreply⟩

end Steps

section Members

theorem forceFound_maintains {found : Option CellId} (missing : EvalError)
    (hfound : ∀ c, found = some c → s.CellPlaced S base c) :
    (forceFound found missing).Maintains S carryOut base s fun b t v =>
      b = t.records.size ∧ s.Extends s.records.size t ∧ v.Placed S b t := by
  cases found with
  | none => exact .raise missing
  | some c => exact force_maintains (hfound c rfl)

theorem lookup_maintains {scope : RecordId} (hscope : s.RecordPlaced S base scope) (name : String)
    (location : Location) :
    (lookup scope name location).Maintains S carryOut base s fun b t v => v.Placed S b t := by
  refine .bind (find_maintains scope name) ?_
  rintro b t found - - ⟨rfl, rfl, rfl⟩
  refine (forceFound_maintains _ fun c hc => ?_).imp fun _ _ _ _ _ h => h.2.2
  obtain ⟨m, hm, rfl⟩ := Option.map_eq_some_iff.1 hc
  exact hscope.find? hm

theorem fieldCell_maintains {fields : RecordId} (hfields : s.FieldsPlaced S base fields)
    (name : String) :
    (fieldCell fields name).Maintains S carryOut base s fun b t found =>
      b = base ∧ t = s ∧ ∀ c, found = some c → s.CellPlaced S base c := by
  refine .bind (readRecord_maintains fields) ?_
  rintro b t r - - ⟨rfl, rfl, rfl⟩
  refine .pure ⟨rfl, rfl, fun c hc => ?_⟩
  obtain ⟨m, hm, rfl⟩ := Option.map_eq_some_iff.1 hc
  exact hfields.2 _ (Record.mem_of_find? hm)

/-- The fields may be read on after one of them was computed. -/
theorem field_maintains {fields : RecordId} (hfields : s.FieldsPlaced S base fields)
    (name : String) :
    (field fields name).Maintains S carryOut base s fun b t v =>
      v.Placed S b t ∧ t.FieldsPlaced S b fields := by
  refine .of_settled fun hs => .bind (fieldCell_maintains hfields name) ?_
  rintro b t found - - ⟨rfl, rfl, hfound⟩
  refine (forceFound_maintains _ hfound).imp ?_
  rintro b u v - - ⟨rfl, hext, hv⟩
  exact ⟨hv, hfields.sealed hs.base_le hext⟩

theorem optionalField_maintains {fields : RecordId} (hfields : s.FieldsPlaced S base fields)
    (name : String) :
    (optionalField fields name).Maintains S carryOut base s fun b t _ =>
      t.FieldsPlaced S b fields := by
  refine .of_settled fun hs => .bind (fieldCell_maintains hfields name) ?_
  rintro b t found - - ⟨rfl, rfl, hfound⟩
  cases found with
  | none => exact .pure hfields
  | some c =>
    refine .bind (force_maintains (hfound c rfl)) ?_
    rintro b u v - - ⟨rfl, hext, -⟩
    exact .pure (hfields.sealed hs.base_le hext)

theorem forceAll_maintains {cells : List CellId} (hcells : ∀ c ∈ cells, s.CellPlaced S base c) :
    (forceAll cells).Maintains S carryOut base s fun b t values =>
      (∀ v ∈ values, v.Placed S b t) ∧
        ∀ fields, s.FieldsPlaced S base fields → t.FieldsPlaced S b fields := by
  induction cells generalizing base s with
  | nil => exact .pure ⟨by simp, fun _ h => h⟩
  | cons c cells ih =>
    rw [List.forall_mem_cons] at hcells
    simp only [forceAll, List.mapM_cons]
    refine .of_settled fun hs => .bind (force_maintains hcells.1) ?_
    rintro b t v hst hle ⟨rfl, hext, hv⟩
    refine .bind (ih fun c hc => (hcells.2 c hc).later hst hle) ?_
    rintro b u values htu hle' ⟨hvalues, hfields⟩
    refine .pure ⟨?_, fun fields h => hfields fields (h.sealed hs.base_le hext)⟩
    rw [List.forall_mem_cons]
    exact ⟨hv.later htu hle', hvalues⟩

/-- The cell of a member of a network holds one of its nodes, or a field has it. -/
theorem networkMember_maintains {id : NetworkId} (hid : id < s.networks.size) (name : String) :
    (networkMember id name).Maintains S carryOut base s fun b t found =>
      ∀ c, found = some c → t.CellPlaced S b c := by
  refine .of_settled fun hs => .bind (readNetwork_maintains id) ?_
  rintro b t n - - ⟨rfl, rfl, rfl⟩
  obtain ⟨hlt, hmembers⟩ := hs.network id hid
  cases hfind : (t.network id).find? name with
  | none =>
    refine (fieldCell_maintains ⟨Nat.lt_of_lt_of_le hlt hs.base_le, hmembers⟩ name).imp ?_
    rintro b u found - - ⟨rfl, rfl, hfound⟩
    exact hfound
  | some node =>
    refine .bind (ready_maintains trivial) ?_
    rintro b u cell - - ⟨rfl, -, hcell, htask⟩
    refine .pure ?_
    rintro c ⟨⟩
    exact ⟨hcell, htask ▸ trivial⟩

theorem memberOf_maintains {v : Value} (hv : v.Placed S base s) (name : String)
    (location : Location) :
    (memberOf v name location).Maintains S carryOut base s fun b t v => v.Placed S b t := by
  obtain ⟨payload, place, path⟩ := v
  have hforce {p : Program (Option CellId)} (hp : p.Maintains S carryOut base s fun b t found =>
      ∀ c, found = some c → t.CellPlaced S b c) :
      Program.Maintains S carryOut (do
        forceFound (← p) (.unknownIdentifier name location)) base s fun b t v => v.Placed S b t :=
    .bind hp fun b t found _ _ hfound =>
      (forceFound_maintains _ hfound).imp fun _ _ _ _ _ h => h.2.2
  rcases payload with _ | _ | _ | id | _ | _ | (_ | id | _)
  case record =>
    refine hforce (.bind (find_maintains id name) ?_)
    rintro b t found - - ⟨rfl, rfl, rfl⟩
    refine .pure fun c hc => ?_
    obtain ⟨m, hm, rfl⟩ := Option.map_eq_some_iff.1 hc
    exact Store.RecordPlaced.find? hv hm
  case object.network => exact hforce (networkMember_maintains hv name)
  all_goals exact .raise _

end Members

end Program

end NetDesc
