import NetDesc.Run

namespace NetDesc

namespace Program

variable {α β : Type} (carryOut : (c : Call) → Store → Outcome c.Reply)

/-- A program in two parts is run one part after the other. Errors and exhaustion of the first
    part are those of the whole. -/
theorem run_bind (p : Program α) (f : α → Program β) (s : Store) :
    (p >>= f).run carryOut s = (p.run carryOut s).bind fun a t => (f a).run carryOut t := by
  change (p.bind f).run carryOut s = _
  induction p generalizing s with
  | done result => rfl
  | raise e => rfl
  | access a next ih => exact ih _ _
  | call c next ih =>
    simp only [Program.bind, run]
    cases carryOut c s with
    | value reply t => exact ih reply t
    | error e t => rfl
    | exhausted => rfl

theorem run_readNode_bind (id : NodeId) (f : Node → Program β) (s : Store) :
    (readNode id >>= f).run carryOut s = (f (s.node id)).run carryOut s := rfl

theorem run_readNetwork_bind (id : NetworkId) (f : Network → Program β) (s : Store) :
    (readNetwork id >>= f).run carryOut s = (f (s.network id)).run carryOut s := rfl

theorem run_call_bind (c : Call) (next : c.Reply → Program α) (s : Store) :
    (call c next).run carryOut s =
      (carryOut c s).bind fun reply t => (next reply).run carryOut t := by
  rw [run]
  cases carryOut c s <;> rfl

theorem run_call (c : Call) (s : Store) : (call c done).run carryOut s = carryOut c s := by
  rw [run]
  cases carryOut c s <;> rfl

variable {carryOut}

/-- To evaluate an identifier whose name is found is to force the cell. -/
theorem run_lookup {s : Store} {scope : RecordId} {name : String} (location : Location)
    {found : Member} (h : s.find? scope name = some found) :
    (lookup scope name location).run carryOut s = carryOut (.force found.cell) s := by
  change (forceFound ((s.find? scope name).map (·.cell)) _).run carryOut s = _
  rw [h]
  exact run_call carryOut (.force found.cell) s

end Program

@[simp]
theorem EvalError.through_cause (e : EvalError) (location : Location) :
    (e.through location).cause = e.cause := by
  unfold through
  split
  · rfl
  · split
    · rfl
    · split <;> rfl

namespace Outcome

variable {α : Type} {o : Outcome α} {location : Location}

/-- If the whole has a value, so has the first part, and the second part goes on from it. -/
theorem bind_eq_value {β : Type} {f : α → Store → Outcome β} {b : β} {t : Store}
    (h : o.bind f = .value b t) : ∃ a s, o = .value a s ∧ f a s = .value b t := by
  cases o with
  | value a s => exact ⟨a, s, rfl, h⟩
  | error e s => cases h
  | exhausted => cases h

theorem through_eq_value {a : α} {s : Store} (h : o.through location = .value a s) :
    o = .value a s := by
  cases o with
  | value b t => exact h
  | error e t => cases h
  | exhausted => cases h

theorem through_eq_error {e : EvalError} {s : Store} (h : o.through location = .error e s) :
    ∃ f, o = .error f s ∧ e = f.through location := by
  cases o with
  | value b t => cases h
  | error f t =>
    cases h
    exact ⟨f, rfl, rfl⟩
  | exhausted => cases h

theorem through_eq_exhausted (h : o.through location = .exhausted) : o = .exhausted := by
  cases o with
  | value b t => cases h
  | error e t => cases h
  | exhausted => rfl

end Outcome

namespace Evaluator

theorem settle_eq_error {c : CellId} {o : Outcome Value} {e : EvalError} {s : Store}
    (h : settle c o = .error e s) : ∃ t, o = .error e t ∧ s = t.setProgress c .pending := by
  cases o with
  | value v t => cases h
  | error f t =>
    cases h
    exact ⟨t, rfl, rfl⟩
  | exhausted => cases h

theorem settle_eq_exhausted {c : CellId} {o : Outcome Value} (h : settle c o = .exhausted) :
    o = .exhausted := by
  cases o with
  | value v t => cases h
  | error e t => cases h
  | exhausted => rfl

variable (ev : Evaluator) (fuel depth : Nat) (s : Store)

/-- Without fuel nothing is carried out, and nothing is said about what would have been. -/
theorem carryOut_zero (c : Call) : ev.carryOut 0 depth c s = .exhausted := by
  rw [carryOut]

/-- To evaluate an expression is to run the program of its form one level deeper. Errors pass
    through its location. -/
theorem carryOut_evaluate {depth : Nat} (h : depth < ev.maxDepth) (e : Expr) (scope : RecordId)
    (path : String) :
    (ev.carryOut (fuel + 1) depth (.perform (.evaluate e scope path)) s : Outcome Value) =
      ((ev.evaluateKind e.kind e.location scope path).run (ev.carryOut fuel (depth + 1)) s).through
        e.location :=
  if_pos h

/-- At the limit an expression is not looked at. The error is the same for all of them, but for
    its location. -/
theorem carryOut_evaluate_deep {depth : Nat} (h : ev.maxDepth ≤ depth) (e : Expr)
    (scope : RecordId) (path : String) :
    (ev.carryOut (fuel + 1) depth (.perform (.evaluate e scope path)) s : Outcome Value) =
      .error (ev.tooDeep e.location) s :=
  if_neg (Nat.not_lt.2 h)

theorem carryOut_element (initializer : Function) (index : Value) (path : String)
    (location : Location) :
    (ev.carryOut (fuel + 1) depth (.perform (.element initializer index path location)) s :
        Outcome Value) =
      ((initializer.apply [index] [] path location).run (ev.carryOut fuel depth) s).through
        location := rfl

theorem carryOut_constant (v : Value) :
    (ev.carryOut (fuel + 1) depth (.perform (.constant v)) s : Outcome Value) = .value v s := rfl

variable {s} {c : CellId}

/-- A finished cell answers with its value, and nothing changes. -/
theorem carryOut_force_finished {v : Value} (h : (s.cell c).progress = .finished v) :
    (ev.carryOut (fuel + 1) depth (.force c) s : Outcome Value) = .value v s := by
  simp only [carryOut, h]

/-- A cell that is forced while it is being computed depends on itself. -/
theorem carryOut_force_running (h : (s.cell c).progress = .running) :
    (ev.carryOut (fuel + 1) depth (.force c) s : Outcome Value) =
      .error (s.cell c).cyclic s := by
  simp only [carryOut, h]

/-- A pending cell is marked as running for the time of its computation. It is settled
    afterwards, so that it is pending again if that has failed. -/
theorem carryOut_force_pending (h : (s.cell c).progress = .pending) :
    (ev.carryOut (fuel + 1) depth (.force c) s : Outcome Value) =
      settle c (ev.carryOut fuel depth (.perform (s.cell c).task) (s.setProgress c .running)) := by
  simp only [carryOut, h]
  rfl

end Evaluator

end NetDesc
