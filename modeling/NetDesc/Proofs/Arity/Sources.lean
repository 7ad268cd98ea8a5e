import NetDesc.Proofs.Arity.Causes
import NetDesc.Proofs.Cells.History
import NetDesc.Proofs.Session

namespace NetDesc

variable {α β : Type}

open Cause (Sourced)

namespace Program

variable {P : Cause → Prop} {base : Nat} {s : Store}

/-- From a store on, with calls answered as promised, the program raises errors of these causes
    only. -/
def RaisesFrom (P : Cause → Prop) : Program α → Nat → Store → Prop
  | done _, _, _ => True
  | raise e, _, _ => P e.cause
  | access a next, base, s => (next (a.perform s).1).RaisesFrom P base (a.perform s).2
  | call c next, _, s => ∀ (t : Store) (reply : c.Reply), t.WellFormed t.records.size →
    s.Grows s.records.size t → c.Answered s t reply →
      (next reply).RaisesFrom P t.records.size t

/-- What a program may raise at all it may raise from any store on. -/
theorem Raises.raisesFrom {p : Program α} (hp : p.Raises P) (base : Nat) (s : Store) :
    p.RaisesFrom P base s := by
  induction p generalizing base s with
  | done result => trivial
  | raise e => exact hp
  | access a next ih => exact ih _ (hp _) base _
  | call c next ih => exact fun t reply _ _ _ => ih reply (hp reply) _ t

theorem Meets.raisesFrom_bind {p : Program α} {f : α → Program β}
    (hmeets : p.Meets (fun b t a => (f a).RaisesFrom P b t) base s)
    (hp : p.RaisesFrom P base s) : (p.bind f).RaisesFrom P base s := by
  induction p generalizing base s with
  | done result => exact hmeets
  | raise e => exact hp
  | access a next ih => exact ih _ hmeets.2 hp
  | call c next ih =>
    intro t reply hwf hgrows hreply
    exact ih reply (hmeets.2 t reply hwf hgrows hreply) (hp t reply hwf hgrows hreply)

/-- What the second program may raise is judged from where the first one may have ended. -/
theorem RaisesFrom.bind {p : Program α} {f : α → Program β} {Q : Nat → Store → α → Prop}
    (hs : s.WellFormed base) (hensures : p.Ensures base s Q) (hp : p.RaisesFrom P base s)
    (hf : ∀ b t a, t.WellFormed b → s.Grows base t → Q b t a → (f a).RaisesFrom P b t) :
    (p >>= f).RaisesFrom P base s := by
  refine Meets.raisesFrom_bind ((hensures hs).imp ?_) hp
  rintro b t a ⟨hwf, hgrows, -, ha⟩
  exact hf b t a hwf hgrows ha

theorem RaisesFrom.check {x : Except EvalError α} {f : α → Program β} (hx : ChecksRaise P x)
    (hf : ∀ a, x = .ok a → (f a).RaisesFrom P base s) :
    (Program.ofExcept x >>= f).RaisesFrom P base s := by
  cases x with
  | ok a => exact hf a rfl
  | error e => exact hx e rfl

end Program

/-- A node that takes inputs and has been tied has some. -/
theorem Node.Valid.inputs_ne_nil {s : Store} {n : Node} (hn : n.Valid s)
    (hinput : n.operation ≠ .inputValue) (hparameter : n.operation ≠ .learnableParameter)
    (htied : n.pendingInput = none) : n.inputs ≠ [] := by
  intro hempty
  have harity := hn.arity
  rw [hempty] at harity
  cases hop : n.operation <;>
    simp_all [Node.arity, Operation.inputCount?, Node.isFinalized]

namespace Network

variable {base : Nat} {s : Store}

theorem sources_raisesFrom (location : Location) {nodes : List (String × NodeId)}
    (hs : s.WellFormed base) (hvalid : ∀ p ∈ nodes, p.2 < s.nodes.size)
    (htied : ∀ p ∈ nodes, (s.node p.2).pendingInput = none) :
    (sources location nodes).RaisesFrom Sourced base s := by
  induction nodes with
  | nil => trivial
  | cons p nodes ih =>
    obtain ⟨name, id⟩ := p
    have hnodes (q) (hq : q ∈ nodes) : q.2 < s.nodes.size := hvalid q (List.mem_cons_of_mem _ hq)
    have hrest := ih hnodes fun q hq => htied q (List.mem_cons_of_mem _ hq)
    have hn := hs.node id (hvalid _ List.mem_cons_self)
    refine .bind hs (Program.readNode_ensures id) trivial ?_
    rintro b t n - - ⟨rfl, rfl, rfl⟩
    split
    · next hempty =>
      split
      · exact .bind hs (sources_ensures location hnodes) hrest fun _ _ _ _ _ _ => trivial
      · exact .bind hs (sources_ensures location hnodes) hrest fun _ _ _ _ _ _ => trivial
      · next op hinput hparameter =>
        have hne := hn.inputs_ne_nil hinput hparameter (htied _ List.mem_cons_self)
        exact absurd (List.isEmpty_iff.1 hempty) hne
    · exact hrest

/-- Sorting the nodes that were found does not fail. They have been tied, so those that have no
    inputs are such that have none by their operation. -/
theorem ofNodes_raisesFrom {fields : RecordId} {ids : List NodeId} (hs : s.WellFormed base)
    (hids : Walked s fields ids) (location : Location) :
    (ofNodes fields location ids).RaisesFrom Sourced base s := by
  have hstart : Collected.Sound s {} [] := ⟨rfl, by simp, by simp, rfl⟩
  have hcollect : (Collected.addAll {} location ids).Raises Sourced :=
    (addAll_raises {} location ids).imp fun _ h => by
      obtain ⟨name, rfl⟩ := h
      exact Cause.ambiguous_sourced name
  refine .bind hs (Collected.addAll_ensures hstart hids.valid hids.tied location)
    (hcollect.raisesFrom base s) ?_
  rintro b t c hwf hst ⟨rfl, hc⟩
  have hmem (p) (hp : p ∈ c.nodes.toList) : p.2 ∈ ids := by
    have horder : c.nodes.toList.map (·.2) = ids := hc.order
    rw [← horder]
    exact List.mem_map_of_mem hp
  have hvalid (p) (hp : p ∈ c.nodes.toList) : p.2 < t.nodes.size :=
    Nat.lt_of_lt_of_le (hids.valid p.2 (hmem p hp)) hst.covers.nodes
  have htied (p) (hp : p ∈ c.nodes.toList) : (t.node p.2).pendingInput = none :=
    ((hst.node p.2 (hids.valid p.2 (hmem p hp))).tied (hids.tied p.2 (hmem p hp))).1
  refine .bind hwf (sources_ensures location hvalid)
    (sources_raisesFrom location hwf hvalid htied) ?_
  exact fun _ _ _ _ _ _ => trivial

theorem construct_raisesFrom {fields : RecordId} (hs : s.WellFormed base)
    (hfields : fields < s.records.size) (location : Location) (path : String) :
    (construct fields location path).RaisesFrom Sourced base s := by
  rw [construct, ofFields_eq, bind_assoc]
  have hwalk : (walk fields).Raises Sourced := Program.Raises.sourced (walk_raises fields)
  refine .bind hs (walk_ensures hfields) (hwalk.raisesFrom base s) ?_
  intro b t ids hwf _ hids
  refine .bind hwf (ofNodes_ensures hids.1 hids.2 location)
    (ofNodes_raisesFrom hwf hids.2 location) ?_
  exact fun _ _ _ _ _ _ => trivial

end Network

/-- Instantiating the type never fails because a node has no inputs. -/
def RuntimeType.Sourced (t : RuntimeType) : Prop :=
  ∀ (fields : RecordId) (location : Location) (path : String) (base : Nat) (s : Store),
    s.WellFormed base → fields < s.records.size →
      (t.construct fields location path).RaisesFrom Cause.Sourced base s

namespace Registry

theorem standard_sourced : ∀ p ∈ standard.types, p.2.Sourced := by
  have hraises {t : RuntimeType} (ht : ∀ fields location path,
      (t.construct fields location path).Raises Cause.Ordinary) : t.Sourced :=
    fun fields location path base s _ _ => (ht fields location path).sourced.raisesFrom base s
  have hnetwork : Network.runtimeType.Sourced :=
    fun fields location path base s hs hfields =>
      Network.construct_raisesFrom hs hfields location path
  intro p hp
  simp only [standard, List.mem_cons, List.not_mem_nil, or_false] at hp
  rcases hp with rfl | rfl | rfl | rfl | rfl | rfl | rfl
  · exact hraises Node.construct_raises
  · exact hnetwork
  · exact hnetwork
  · exact hraises TextFunction.construct_raises
  · exact hraises NumericFunction.construct_raises
  · exact hraises PrintAction.construct_raises
  · exact hraises FailAction.construct_raises

variable {base : Nat} {s : Store} (hs : s.WellFormed base) {fields : RecordId}
  (hfields : fields < s.records.size)

include hs hfields

theorem instantiate_raisesFrom {t : RuntimeType} (hsound : t.Sound) (ht : t.Sourced)
    (location : Location) (path : String) :
    (instantiate t fields location path).RaisesFrom Cause.Sourced base s := by
  refine .bind hs (hsound fields location path base s hfields)
    (ht fields location path base s hs hfields) ?_
  intro b u v _ _ _
  split
  · trivial
  · trivial

theorem construct_raisesFrom (name : String) (location : Location) (path : String) :
    (standard.construct name fields location path).RaisesFrom Cause.Sourced base s :=
  .check (standard.runtimeType_raises name location).sourced fun _ ht =>
    instantiate_raisesFrom hs hfields (runtimeType_sound standard_sound ht)
      (standard_sourced _ (runtimeType_mem ht)) location path

end Registry

namespace Evaluator

variable {ev : Evaluator} (hev : ev.registry = .standard) {base : Nat} {s : Store}

include hev

theorem evaluateNew_raisesFrom (hs : s.WellFormed base) (typeName : Ident) (fields : Expr)
    (location : Location) {scope : RecordId} (hscope : scope < s.records.size) (path : String) :
    (ev.evaluateNew typeName fields scope path location).RaisesFrom Sourced base s := by
  rw [evaluateNew, hev]
  refine .check (Registry.standard.runtimeType_raises _ _).sourced fun t ht => ?_
  refine .bind hs (Program.evaluate_givesValue fields hscope _) (fun _ _ _ _ _ => trivial) ?_
  intro b u v hwf _ hv
  refine .check v.asRecord_raises.sourced fun id hid => ?_
  exact Registry.instantiate_raisesFrom hwf (Value.asRecord_valid hv hid)
    (Registry.runtimeType_sound Registry.standard_sound ht)
    (Registry.standard_sourced _ (Registry.runtimeType_mem ht)) location path

theorem evaluateKind_raisesFrom (hs : s.WellFormed base) (kind : ExprKind) (location : Location)
    {scope : RecordId} (hscope : scope < s.records.size) (path : String) :
    (ev.evaluateKind kind location scope path).RaisesFrom Sourced base s := by
  cases kind with
  | new typeName fields =>
    exact evaluateNew_raisesFrom hev hs typeName fields location hscope path
  | _ =>
    refine (evaluateKind_raises hev ?_ location scope path).sourced.raisesFrom base s
    simp

theorem taskProgram_raisesFrom (hs : s.WellFormed base) {task : Task} (htask : task.Valid s) :
    (ev.taskProgram task).RaisesFrom Sourced base s := by
  cases task with
  | evaluate e scope path => exact evaluateKind_raisesFrom hev hs e.kind e.location htask path
  | element initializer index path location =>
    exact (initializer.apply_raises [index] [] path location).sourced.raisesFrom base s
  | constant v => trivial

end Evaluator

/-- All errors that are raised in a history have one of these causes. -/
def RaisesOnly (P : Cause → Prop) (events : List Event) : Prop :=
  ∀ e, .raised e ∈ events → P e.cause

section History

variable {P : Cause → Prop} {events more : List Event}

theorem raisesOnly_append :
    RaisesOnly P (events ++ more) ↔ RaisesOnly P events ∧ RaisesOnly P more := by
  simp [RaisesOnly, or_imp, forall_and]

theorem RaisesOnly.entered (h : RaisesOnly P events) (location : Location) :
    RaisesOnly P (.entered location :: events ++ [.left]) := by
  simpa [RaisesOnly] using h

theorem RaisesOnly.computation (h : RaisesOnly P events) (c : CellId) (o : Outcome Value) :
    RaisesOnly P (.started c :: events ++ Evaluator.ending c o) := by
  intro e he
  have hending : Event.raised e ∉ Evaluator.ending c o := by cases o <;> simp [Evaluator.ending]
  simp only [List.cons_append, List.mem_cons, List.mem_append, hending, or_false,
    reduceCtorEq, false_or] at he
  exact h e he

theorem Access.history_raisesOnly (a : Access) (s : Store) : RaisesOnly P (a.history s) := by
  cases a <;> simp [RaisesOnly, history]

/-- Only what programs may raise is raised in their runs. -/
theorem Program.Meets.raisesOnly {carryOut : (c : Call) → Store → Outcome c.Reply}
    {inside : Call → Store → List Event} (hcalls : Promised carryOut)
    (hinside : ∀ (c : Call) (s : Store), s.WellFormed s.records.size → c.Valid s →
      RaisesOnly P (inside c s))
    {Q : Nat → Store → α → Prop} {p : Program α} {base : Nat} {s : Store} (hs : s.WellFormed base)
    (hp : p.Meets Q base s) (hraises : p.RaisesFrom P base s) :
    RaisesOnly P (p.history carryOut inside s) := by
  induction p generalizing base s with
  | done result => simp [RaisesOnly, history]
  | raise e =>
    intro e' he'
    simp only [history, List.mem_singleton, Event.raised.injEq] at he'
    rw [he']
    exact hraises
  | access a next ih =>
    exact raisesOnly_append.2 ⟨a.history_raisesOnly s, ih _ (hp.1.wellFormed hs) hp.2 hraises⟩
  | call c next ih =>
    rw [history, raisesOnly_append]
    refine ⟨hinside c s hs.seal hp.1, ?_⟩
    have hcall := hcalls c s hs.seal hp.1
    cases hreply : carryOut c s with
    | value reply t =>
      rw [hreply] at hcall
      obtain ⟨hwf, hgrows, hanswer⟩ := hcall
      exact ih reply hwf (hp.2 t reply hwf hgrows hanswer) (hraises t reply hwf hgrows hanswer)
    | error e t => simp [RaisesOnly]
    | exhausted => simp [RaisesOnly]

end History

namespace Evaluator

variable {ev : Evaluator} (hev : ev.registry = .standard)

include hev

/-- Inside of calls nobody reports that a node has no inputs. -/
theorem history_sourced (fuel depth : Nat) (c : Call) (s : Store)
    (hs : s.WellFormed s.records.size) (hc : c.Valid s) :
    RaisesOnly Sourced (ev.history fuel depth c s) := by
  have hsound : ev.registry.Sound := hev ▸ Registry.standard_sound
  induction fuel generalizing depth c s with
  | zero => simp [RaisesOnly, history]
  | succ fuel ih =>
    have hrun {α : Type} {p : Program α} {Q : Nat → Store → α → Prop} (depth : Nat)
        (hp : p.Ensures s.records.size s Q) (hraises : p.RaisesFrom Sourced s.records.size s) :
        RaisesOnly Sourced (p.history (ev.carryOut fuel depth) (ev.history fuel depth) s) :=
      (hp hs).raisesOnly (carryOut_promised hsound fuel depth) (ih depth) hs hraises
    cases c with
    | perform task =>
      have htask : task.Valid s := hc
      have hraises := taskProgram_raisesFrom hev hs htask
      cases task with
      | evaluate e scope path =>
        by_cases hdepth : depth < ev.maxDepth
        · rw [history_evaluate ev fuel s hdepth]
          exact (hrun _ (taskProgram_givesValue hsound htask) hraises).entered e.location
        · rw [history_evaluate_deep ev fuel s (Nat.le_of_not_lt hdepth)]
          simpa [RaisesOnly] using Cause.sourced_of_code (by simp [tooDeep, Cause.code])
      | element initializer index path location =>
        exact (hrun depth (taskProgram_givesValue hsound htask) hraises).entered location
      | constant v => simp [RaisesOnly, history]
    | force cell =>
      cases hprogress : (s.cell cell).progress with
      | finished v =>
        rw [history_force_finished ev fuel depth hprogress]
        simp [RaisesOnly]
      | running =>
        rw [history_force_running ev fuel depth hprogress]
        have hcause := Cause.ordinary_of_code (c := (s.cell cell).cyclic.cause)
          (by simp [Cell.cyclic, Cause.code])
        simpa [RaisesOnly] using hcause.sourced
      | pending =>
        rw [history_force_pending ev fuel depth hprogress]
        exact (ih depth (.perform _) _ (hs.start hprogress) (hs.task_valid hc)).computation cell _
    | render spec v =>
      exact hrun depth (Render.value_ensures spec hc)
        ((Render.value_raises spec v).sourced.raisesFrom _ s)
    | tie work visited =>
      exact hrun depth (Network.tieStep_ensures hc)
        ((Network.tieStep_raises work visited).sourced.raisesFrom _ s)

end Evaluator

/-- What happens while a request is answered. -/
def Request.history (r : Request) (ev : Evaluator) (fuel : Nat) (s : Store) : List Event :=
  (r.program ev).history (ev.carryOut fuel 0) (ev.history fuel 0) s

/-- Whatever is asked for, nobody reports that a node has no inputs. -/
theorem Request.history_sourced {ev : Evaluator} (hev : ev.registry = .standard) {r : Request}
    {s : Store} (hs : s.WellFormed s.records.size) (hr : r.Valid s) (fuel : Nat) :
    RaisesOnly Sourced (r.history ev fuel s) := by
  have hsound : ev.registry.Sound := hev ▸ Registry.standard_sound
  have hraises : (r.program ev).RaisesFrom Sourced s.records.size s := by
    have hdrop {α : Type} {p : Program α} (hp : p.Raises Cause.Ordinary) :
        Program.RaisesFrom Sourced (do let _ ← p) s.records.size s := by
      apply Program.Raises.raisesFrom
      exact .bind hp.sourced fun _ => trivial
    cases r with
    | evaluate root => exact hdrop fun _ _ => trivial
    | member v name location => exact hdrop (Program.memberOf_raises v name location)
    | force c => exact hdrop fun _ => trivial
    | index a i location => exact hdrop (Evaluator.elementAt_raises a i location)
    | call f args named path location => exact hdrop (f.apply_raises args named path location)
    | operate site left right => exact hdrop (hev ▸ Operator.apply_raises site left right)
    | construct typeName fields location path =>
      have hconstruct := Registry.construct_raisesFrom hs hr typeName location path
      rw [← hev] at hconstruct
      exact .bind hs (Registry.construct_givesValue hsound typeName hr location path) hconstruct
        fun _ _ _ _ _ _ => trivial
    | format v how =>
      exact .check (TextFunction.parse_raises how v.location).sourced fun _ _ _ _ _ _ _ => trivial
    | finalize roots => exact hdrop fun _ => trivial
  exact (Request.program_ensures hsound hr hs).raisesOnly
    (Evaluator.carryOut_promised hsound fuel 0) (Evaluator.history_sourced hev fuel 0) hs hraises

end NetDesc
