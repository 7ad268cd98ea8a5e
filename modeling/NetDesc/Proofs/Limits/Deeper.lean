import NetDesc.Proofs.Arity.Causes
import NetDesc.Proofs.Limits.CutOff
import NetDesc.Proofs.Locations.Trail
import NetDesc.Proofs.Naming.Region

namespace NetDesc

variable {α β : Type}

/-- The cause with a limit that is one higher. -/
def Cause.deepened : Cause → Cause
  | recursionLimit limit => recursionLimit (limit + 1)
  | c => c

theorem Cause.Shallow.deepened_eq {c : Cause} (h : c.Shallow) : c.deepened = c := by
  cases c with
  | recursionLimit limit => exact absurd rfl (h limit)
  | _ => rfl

/-- The error as it is where the limit is one higher. -/
def EvalError.deepened (e : EvalError) : EvalError :=
  { e with cause := e.cause.deepened }

namespace EvalError

theorem deepened_eq {e : EvalError} (h : e.cause.Shallow) : e.deepened = e := by
  rw [deepened, h.deepened_eq]

theorem deepened_through (e : EvalError) (location : Location) :
    (e.through location).deepened = e.deepened.through location := by
  have hlast : e.deepened.lastLocation = e.lastLocation := rfl
  have hlocation : e.deepened.location = e.location := rfl
  unfold through
  rw [hlast, hlocation]
  split
  · rfl
  · split
    · rfl
    · split <;> rfl

/-- An error that has no location has no trail either. -/
def Settled (e : EvalError) : Prop :=
  e.location.isUnknown → e.trail = #[]

theorem Settled.through {e : EvalError} (h : e.Settled) (location : Location) :
    (e.through location).Settled := by
  unfold EvalError.through
  split
  · exact h
  · next hknown =>
    split
    · exact fun hunknown => absurd hunknown hknown
    · next hlocated =>
      split
      · exact h
      · exact fun hunknown => absurd hunknown hlocated

/-- Having passed through a known location, the error was last seen there. -/
theorem Settled.seen_at {e : EvalError} (h : e.Settled) {location : Location}
    (hknown : ¬location.isUnknown) :
    (e.through location).lastLocation = location ∧ ¬(e.through location).location.isUnknown := by
  unfold EvalError.through
  rw [if_neg hknown]
  split
  · next hlocated => simp [lastLocation, h hlocated, hknown]
  · next hlocated =>
    split
    · next hlast => exact ⟨hlast, hlocated⟩
    · simp [lastLocation, hlocated]

/-- To pass through a location once more leaves no trace. -/
theorem Settled.through_through {e : EvalError} (h : e.Settled) (location : Location) :
    (e.through location).through location = e.through location := by
  by_cases hknown : location.isUnknown
  · simp only [EvalError.through, hknown, if_true]
  · obtain ⟨hlast, hlocated⟩ := h.seen_at hknown
    rw [EvalError.through.eq_def (e.through location), if_neg hknown, if_neg hlocated, if_pos hlast]

end EvalError

/-- An error that has been raised and has passed through what was open then is settled. -/
theorem Unwound.settled {events : List Event} {e : EvalError} (h : Unwound events e) :
    e.Settled := by
  cases h with
  | @intro before after raised passed _ _ hfresh hpassed =>
    have hstart : raised.Settled := fun _ => hfresh
    clear hfresh hpassed
    induction passed generalizing raised with
    | nil => exact hstart
    | cons location passed ih => exact ih (hstart.through location)

/-- The outcome as it is where the limit is one higher. How deep a call is nested shows only in
    whether that is below the limit, so a call that is nested one level deeper ends like this. -/
def Outcome.deepened : Outcome α → Outcome α
  | value a s => value a s
  | error e s => error e.deepened s
  | exhausted => exhausted

namespace Outcome

theorem deepened_through (o : Outcome α) (location : Location) :
    (o.through location).deepened = o.deepened.through location := by
  cases o with
  | value a s => rfl
  | error e s => exact congrArg (error · s) (e.deepened_through location)
  | exhausted => rfl

theorem deepened_settle (cell : CellId) (o : Outcome Value) :
    (Evaluator.settle cell o).deepened = Evaluator.settle cell o.deepened := by
  cases o <;> rfl

theorem deepened_bind (o : Outcome α) (f : α → Store → Outcome β) :
    (o.bind f).deepened = o.deepened.bind fun a s => (f a s).deepened := by
  cases o <;> rfl

end Outcome

/-- A program that does not itself find expressions nested too deep runs the same but for what its
    calls say of the limit. -/
theorem Program.Raises.run_deepened {carryOut carryOut' : (c : Call) → Store → Outcome c.Reply}
    (hcalls : ∀ c s, carryOut' c s = (carryOut c s).deepened) {p : Program α}
    (hp : p.Raises Cause.Shallow) (s : Store) :
    p.run carryOut' s = (p.run carryOut s).deepened := by
  induction p generalizing s with
  | done result => rfl
  | raise e => exact congrArg (Outcome.error · s) (EvalError.deepened_eq hp).symm
  | access a next ih => exact ih _ (hp _) _
  | call c next ih =>
    rw [run_call_bind, run_call_bind, hcalls, Outcome.deepened_bind]
    cases carryOut c s with
    | value reply t => exact ih reply (hp reply) t
    | error e t => rfl
    | exhausted => rfl

theorem Network.construct_shallow (fields : RecordId) (location : Location) (path : String) :
    (construct fields location path).Raises Cause.Shallow := by
  have hambiguous (name : String) : (ambiguous name).Shallow :=
    Cause.shallow_of_code (by simp [ambiguous, Cause.code])
  have hsourceless (name : String) (op : Operation) : (sourceless name op).Shallow :=
    Cause.shallow_of_code (by simp [sourceless, Cause.code])
  rw [construct, ofFields_eq, bind_assoc]
  refine .bind (walk_raises fields).shallow fun ids => ?_
  refine .bind (.bind ((addAll_raises {} location ids).imp ?_) fun c => ?_) fun n => ?_
  · rintro _ ⟨name, rfl⟩
    exact hambiguous name
  · refine .bind ((sources_raises location _).imp ?_) fun s => trivial
    rintro _ ⟨name, op, rfl⟩
    exact hsourceless name op
  · exact fun _ => trivial

theorem Registry.standard_shallow {name : String} {place : Location} {t : RuntimeType}
    (ht : standard.runtimeType name place = .ok t) (fields : RecordId) (location : Location)
    (path : String) : (t.construct fields location path).Raises Cause.Shallow := by
  have hmem := runtimeType_mem ht
  simp only [standard, List.mem_cons, Prod.mk.injEq, List.not_mem_nil, or_false] at hmem
  rcases hmem with ⟨-, rfl⟩ | ⟨-, rfl⟩ | ⟨-, rfl⟩ | ⟨-, rfl⟩ | ⟨-, rfl⟩ | ⟨-, rfl⟩ | ⟨-, rfl⟩
  · exact (Node.construct_raises fields location path).shallow
  · exact Network.construct_shallow fields location path
  · exact Network.construct_shallow fields location path
  · exact (TextFunction.construct_raises fields location path).shallow
  · exact (NumericFunction.construct_raises fields location path).shallow
  · exact (PrintAction.construct_raises fields location path).shallow
  · exact (FailAction.construct_raises fields location path).shallow

/-- Access to a member of a tree by an expression where the tree is. -/
def Expr.access (root : Expr) (name : String) : Expr :=
  .mk (.member root { name, location := root.location }) root.location

namespace Evaluator

variable {ev : Evaluator}

/-- The evaluator with a limit on depth that is one higher. -/
def deeper (ev : Evaluator) : Evaluator :=
  ev.withLimits (ev.maxDepth + 1) ev.maxArrayLength

theorem taskProgram_deeper (ev : Evaluator) (task : Task) :
    ev.deeper.taskProgram task = ev.taskProgram task := by
  cases task with
  | evaluate e scope path =>
    obtain ⟨kind, location⟩ := e
    cases kind <;> rfl
  | _ => rfl

section Standard

variable (hev : ev.registry = .standard)

include hev

theorem evaluateNew_shallow (typeName : Ident) (fields : Expr) (scope : RecordId) (path : String)
    (location : Location) :
    (ev.evaluateNew typeName fields scope path location).Raises Cause.Shallow := by
  have hchecked := (Registry.standard.runtimeType_raises typeName.name
    (typeName.location.orElse location)).shallow
  unfold evaluateNew
  rw [hev]
  cases ht : Registry.standard.runtimeType typeName.name (typeName.location.orElse location) with
  | ok t =>
    refine Program.Raises.bind (p := Program.evaluate fields scope _) (fun _ => trivial) fun v => ?_
    refine .check v.asRecord_raises.shallow fun record => ?_
    exact Registry.instantiate_raises (Registry.standard_shallow ht record location path)
  | error e => exact hchecked e ht

theorem taskProgram_shallow (task : Task) : (ev.taskProgram task).Raises Cause.Shallow := by
  cases task with
  | evaluate e scope path =>
    obtain ⟨kind, location⟩ := e
    by_cases hnew : ∃ typeName fields, kind = .new typeName fields
    · obtain ⟨typeName, fields, rfl⟩ := hnew
      exact evaluateNew_shallow hev typeName fields scope path location
    · have hkind (typeName : Ident) (fields : Expr) (h : kind = .new typeName fields) : False :=
        hnew ⟨typeName, fields, h⟩
      exact (evaluateKind_raises hev hkind location scope path).shallow
  | element initializer index path location =>
    exact (initializer.apply_raises [index] [] path location).shallow
  | constant v => trivial

/-- With a limit that is one higher, a call one level deeper is carried out the same. -/
theorem carryOut_deeper (fuel depth : Nat) (c : Call) (s : Store) :
    ev.deeper.carryOut fuel (depth + 1) c s = (ev.carryOut fuel depth c s).deepened := by
  induction fuel generalizing depth c s with
  | zero =>
    rw [carryOut_zero, carryOut_zero]
    rfl
  | succ fuel ih =>
    have hrun {α : Type} {p : Program α} (hp : p.Raises Cause.Shallow) (depth : Nat) (s : Store) :
        p.run (ev.deeper.carryOut fuel (depth + 1)) s =
          (p.run (ev.carryOut fuel depth) s).deepened :=
      hp.run_deepened (ih depth) s
    cases c with
    | perform task =>
      have hrun (depth : Nat) : (ev.deeper.taskProgram task).run
          (ev.deeper.carryOut fuel (depth + 1)) s =
            ((ev.taskProgram task).run (ev.carryOut fuel depth) s).deepened := by
        rw [taskProgram_deeper, hrun (taskProgram_shallow hev task)]
      cases task with
      | evaluate e scope path =>
        rcases Nat.lt_or_ge depth ev.maxDepth with hdepth | hdepth
        · rw [carryOut_evaluate ev fuel s hdepth,
            carryOut_evaluate ev.deeper fuel s (Nat.succ_lt_succ hdepth)]
          exact (congrArg (·.through e.location) (hrun (depth + 1))).trans
            (Outcome.deepened_through _ e.location).symm
        · rw [carryOut_evaluate_deep ev fuel s hdepth,
            carryOut_evaluate_deep ev.deeper fuel s (Nat.succ_le_succ hdepth)]
          rfl
      | element initializer index path location =>
        exact (congrArg (·.through location) (hrun depth)).trans
          (Outcome.deepened_through _ location).symm
      | constant v => rfl
    | force cell =>
      cases hprogress : (s.cell cell).progress with
      | finished v =>
        rw [carryOut_force_finished _ fuel _ hprogress, carryOut_force_finished _ fuel _ hprogress]
        rfl
      | running =>
        rw [carryOut_force_running _ fuel _ hprogress, carryOut_force_running _ fuel _ hprogress]
        rfl
      | pending =>
        rw [carryOut_force_pending _ fuel _ hprogress, carryOut_force_pending _ fuel _ hprogress,
          ih]
        exact (Outcome.deepened_settle cell _).symm
    | render spec v => exact hrun (Render.value_raises spec v).shallow depth s
    | tie work visited => exact hrun (Network.tieStep_raises work visited).shallow depth s

theorem settled_of_task {fuel depth : Nat} {task : Task} {s t : Store} {e : EvalError}
    (h : (ev.taskProgram task).run (ev.carryOut fuel depth) s = .error e t) : e.Settled := by
  have hplaceless : ev.registry.Placeless := hev ▸ Registry.standard_placeless
  have htask : task.Varies .erasure task.unlocated := Task.varies_erasure_iff.2 rfl
  have hunwinds := (taskProgram_varies (hplaceless _) htask task.not_idle_erasure).unwinds
    (carryOut_unwinds hplaceless fuel depth) s
  rw [h] at hunwinds
  exact Unwound.settled hunwinds

/-- What an expression fails with has passed through the expression already. -/
theorem through_of_evaluate {fuel depth : Nat} {e : Expr} {scope : RecordId} {path : String}
    {s t : Store} {err : EvalError}
    (h : ev.carryOut fuel depth (.perform (.evaluate e scope path)) s = .error err t) :
    err.through e.location = err := by
  cases fuel with
  | zero =>
    rw [carryOut_zero] at h
    cases h
  | succ fuel =>
    rcases Nat.lt_or_ge depth ev.maxDepth with hdepth | hdepth
    · rw [carryOut_evaluate ev fuel s hdepth] at h
      obtain ⟨f, hf, rfl⟩ := Outcome.through_eq_error h
      have hrun : (ev.taskProgram (.evaluate e scope path)).run (ev.carryOut fuel (depth + 1)) s =
          .error f t := hf
      have hsettled : f.Settled := settled_of_task hev hrun
      exact hsettled.through_through e.location
    · rw [carryOut_evaluate_deep ev fuel s hdepth] at h
      cases h
      by_cases hknown : e.location.isUnknown <;> simp [tooDeep, EvalError.through, hknown,
        EvalError.lastLocation]

omit hev in
/-- A tree is evaluated in a record that is new. -/
theorem evaluateTopLevel_eq (ev : Evaluator) (fuel : Nat) (root : Expr) (s : Store) :
    ev.evaluateTopLevel fuel root s =
      ev.carryOut fuel 0 (.perform (.evaluate root s.records.size ev.rootPath))
        (Access.perform (.newRecord none) s).2 :=
  Program.run_call (ev.carryOut fuel 0) _ _

/-- A member that is fetched from outside and one that an expression accesses are the same: the
    expression gives the same value, prints the same and leaves the same behind, and where it fails
    the error is the same with the same trail, though a limit that it names is one higher. -/
theorem access_agrees (fuel : Nat) (root : Expr) (name : String) (s : Store) :
    ev.deeper.evaluateTopLevel (fuel + 1) (root.access name) s =
      (ev.evaluateMember fuel root name s).deepened := by
  have hpath : joinPath ev.rootPath "" = ev.rootPath := joinPath_id ev.rootPath
  have hlocation : root.location.orElse root.location = root.location := by
    unfold Location.orElse
    split <;> rfl
  have htree := carryOut_deeper hev fuel 0 (.perform (.evaluate root s.records.size ev.rootPath))
    (Access.perform (.newRecord none) s).2
  have hmember (v : Value) (t : Store) :
      (Program.memberOf v name root.location).run (ev.deeper.carryOut fuel 1) t =
        (ev.run fuel (Program.memberOf v name root.location) t).deepened :=
    (Program.memberOf_raises v name root.location).shallow.run_deepened
      (carryOut_deeper hev fuel 0) t
  have hprogram : ev.deeper.evaluateKind (root.access name).kind root.location s.records.size
      ev.rootPath = (Program.evaluate root s.records.size ev.rootPath >>= fun v =>
        Program.memberOf v name root.location) := by
    change (Program.evaluate root s.records.size (joinPath ev.rootPath "") >>= fun v =>
      Program.memberOf v name (root.location.orElse root.location)) = _
    rw [hpath, hlocation]
  have hrun : (ev.deeper.evaluateKind (root.access name).kind root.location s.records.size
      ev.rootPath).run (ev.deeper.carryOut fuel 1) (Access.perform (.newRecord none) s).2 =
        (ev.evaluateTopLevel fuel root s).deepened.bind fun v t =>
          (ev.run fuel (Program.memberOf v name root.location) t).deepened := by
    rw [hprogram, Program.run_bind, evaluateTopLevel_eq]
    simp only [hmember]
    exact congrArg (fun o : Outcome Value => o.bind _) ((Program.run_call _ _ _).trans htree)
  have haccess : ev.deeper.evaluateTopLevel (fuel + 1) (root.access name) s =
      ((ev.evaluateTopLevel fuel root s).deepened.bind fun v t =>
        (ev.run fuel (Program.memberOf v name root.location) t).deepened).through
          root.location := by
    rw [evaluateTopLevel_eq, ← hrun]
    exact carryOut_evaluate ev.deeper fuel _ (Nat.succ_pos _) (root.access name) _ _
  rw [haccess, evaluateMember]
  cases ho : ev.evaluateTopLevel fuel root s with
  | value v t => exact (Outcome.deepened_through _ root.location).symm
  | error e t =>
    rw [evaluateTopLevel_eq] at ho
    have hthrough := through_of_evaluate hev ho
    refine congrArg (Outcome.error · t) ?_
    rw [← EvalError.deepened_through, hthrough]
  | exhausted => rfl

end Standard

/-- Two levels are too few to fetch `x`, and three are too few to access it. -/
theorem access_agrees_relay :
    let ev := ({} : Evaluator).withLimits 2 0
    ∃ e s, ev.evaluateMember 20 relayExpr "x" {} = .error e s ∧ e.cause = .recursionLimit 2 ∧
      ev.deeper.evaluateTopLevel 21 (relayExpr.access "x") {} =
        .error { e with cause := .recursionLimit 3 } s := by
  intro ev
  have hfails : (ev.evaluateMember 20 relayExpr "x" {}).error?.map (·.1.cause) =
      some (.recursionLimit 2) := by
    decide +kernel
  obtain ⟨⟨e, s⟩, herror, hcause⟩ := Option.map_eq_some_iff.1 hfails
  have hmember := Outcome.error?_eq_some herror
  have hagrees := access_agrees (rfl : ev.registry = .standard) 20 relayExpr "x" {}
  have hdeepened : e.deepened = { e with cause := .recursionLimit 3 } := by
    rw [EvalError.deepened, show e.cause = .recursionLimit 2 from hcause]
    rfl
  rw [hmember, Outcome.deepened, hdeepened] at hagrees
  exact ⟨e, s, hmember, hcause, hagrees⟩

end Evaluator

end NetDesc
