import NetDesc.Proofs.Network.Build
import NetDesc.Proofs.Run.Calls

namespace NetDesc

namespace Outcome

variable {α : Type}

/-- The store that is left when a run has ended, with a result or an error. -/
def store? : Outcome α → Option Store
  | value _ s => some s
  | error _ s => some s
  | exhausted => none

/-- The result with the store that it comes with. -/
def value? : Outcome α → Option (α × Store)
  | value a s => some (a, s)
  | _ => none

theorem value?_eq_some {o : Outcome α} {a : α} {s : Store} (h : o.value? = some (a, s)) :
    o = .value a s := by
  cases o <;> cases h
  rfl

/-- The error with the store that is left. -/
def error? : Outcome α → Option (EvalError × Store)
  | error e s => some (e, s)
  | _ => none

theorem error?_eq_some {o : Outcome α} {e : EvalError} {s : Store} (h : o.error? = some (e, s)) :
    o = .error e s := by
  cases o <;> cases h
  rfl

@[simp]
theorem store?_through (o : Outcome α) (location : Location) :
    (o.through location).store? = o.store? := by
  cases o <;> rfl

/-- The store that is left is well-formed and grew out of `s`, and a result is as `P` says. -/
def Kept (s : Store) (P : Store → α → Prop) : Outcome α → Prop
  | value a t => t.WellFormed t.records.size ∧ s.Grows s.records.size t ∧ P t a
  | error _ t => t.WellFormed t.records.size ∧ s.Grows s.records.size t
  | exhausted => True

theorem Kept.through {s : Store} {P : Store → α → Prop} {o : Outcome α} (ho : o.Kept s P)
    (location : Location) : (o.through location).Kept s P := by
  cases o <;> exact ho

theorem Kept.of_store? {s t : Store} {P : Store → α → Prop} {o : Outcome α} (ho : o.Kept s P)
    (ht : o.store? = some t) : t.WellFormed t.records.size ∧ s.Grows s.records.size t := by
  cases o with
  | value a u => cases ht; exact ⟨ho.1, ho.2.1⟩
  | error e u => cases ht; exact ho
  | exhausted => cases ht

end Outcome

namespace Program

variable {α : Type} {carryOut : (c : Call) → Store → Outcome c.Reply} {base : Nat} {s : Store}

/-- The stores that a run passes, given those that are passed inside calls. -/
inductive Passes (carryOut : (c : Call) → Store → Outcome c.Reply)
    (inside : Call → Store → Store → Prop) {α : Type} : Program α → Store → Store → Prop
  | start (p : Program α) (s : Store) : Passes carryOut inside p s s
  | access {a : Access} {next : a.Reply → Program α} {s t : Store}
      (h : Passes carryOut inside (next (a.perform s).1) (a.perform s).2 t) :
      Passes carryOut inside (access a next) s t
  | inside {c : Call} {next : c.Reply → Program α} {s t : Store} (h : inside c s t) :
      Passes carryOut inside (call c next) s t
  | reply {c : Call} {next : c.Reply → Program α} {s t u : Store} {reply : c.Reply}
      (hreply : carryOut c s = .value reply u) (h : Passes carryOut inside (next reply) u t) :
      Passes carryOut inside (call c next) s t

/-- The store that is left at the end is passed. -/
theorem passes_of_store? {inside : Call → Store → Store → Prop} {p : Program α} {t : Store}
    (ht : (p.run carryOut s).store? = some t) (hinside : ∀ (c : Call) (s t : Store),
      (carryOut c s).store? = some t → inside c s t) : p.Passes carryOut inside s t := by
  induction p generalizing s with
  | done result =>
    cases ht
    exact .start _ _
  | raise e =>
    cases ht
    exact .start _ _
  | access a next ih => exact .access (ih _ ht)
  | call c next ih =>
    rw [Program.run] at ht
    cases hreply : carryOut c s with
    | value reply u =>
      rw [hreply] at ht
      exact .reply hreply (ih reply ht)
    | error e u =>
      rw [hreply] at ht
      cases ht
      exact .inside (hinside c s t (by rw [hreply]; rfl))
    | exhausted =>
      rw [hreply] at ht
      cases ht

/-- Calls are answered as promised. -/
def Promised (carryOut : (c : Call) → Store → Outcome c.Reply) : Prop :=
  ∀ (c : Call) (s : Store), s.WellFormed s.records.size → c.Valid s →
    (carryOut c s).Kept s (c.Answered s)

/-- A result is as `P` says, and an error leaves a store that is as good. -/
def Met (base : Nat) (s : Store) (P : Nat → Store → α → Prop) : Outcome α → Prop
  | .value a t => ∃ b, P b t a
  | .error _ t => (∃ b, t.WellFormed b) ∧ s.Grows base t
  | .exhausted => True

theorem Met.after {P : Nat → Store → α → Prop} {o : Outcome α} {b : Nat} {t : Store}
    (ho : Met b t P o) (hst : s.Grows base t) (hle : base ≤ b) : Met base s P o := by
  cases o with
  | value a u => exact ho
  | error e u => exact ⟨ho.1, hst.trans ho.2 hle⟩
  | exhausted => trivial

/-- A run ends as the program ensures. -/
theorem Meets.run {P : Nat → Store → α → Prop} {p : Program α} (hcalls : Promised carryOut)
    (hs : s.WellFormed base) (hp : p.Meets P base s) : Met base s P (p.run carryOut s) := by
  induction p generalizing base s with
  | done result => exact ⟨base, hp⟩
  | raise e => exact ⟨⟨base, hs⟩, .refl base s⟩
  | access a next ih =>
    obtain ⟨ha, hnext⟩ := hp
    exact (ih _ (ha.wellFormed hs) hnext).after (ha.grows hs) (Nat.le_refl base)
  | call c next ih =>
    obtain ⟨hc, hnext⟩ := hp
    have hcall := hcalls c s hs.seal hc
    rw [Program.run]
    cases hreply : carryOut c s with
    | value reply t =>
      rw [hreply] at hcall
      obtain ⟨hwf, hgrows, hanswer⟩ := hcall
      refine (ih reply hwf (hnext t reply hwf hgrows hanswer)).after (hgrows.weaken hs.base_le) ?_
      exact Nat.le_trans hs.base_le hgrows.covers.records
    | error e t =>
      rw [hreply] at hcall
      exact ⟨⟨_, hcall.1⟩, hcall.2.weaken hs.base_le⟩
    | exhausted => trivial

/-- A call runs a program after the records that are there have been sealed. -/
theorem Ensures.run {P : Store → α → Prop} {p : Program α} (hcalls : Promised carryOut)
    (hs : s.WellFormed s.records.size)
    (hp : p.Ensures s.records.size s fun _ t a => P t a) : (p.run carryOut s).Kept s P := by
  have hrun := Meets.run hcalls hs (hp hs)
  cases heq : p.run carryOut s with
  | value a t =>
    rw [heq] at hrun
    obtain ⟨b, hwf, hgrows, -, hP⟩ := hrun
    exact ⟨hwf.seal, hgrows, hP⟩
  | error e t =>
    rw [heq] at hrun
    obtain ⟨⟨b, hwf⟩, hgrows⟩ := hrun
    exact ⟨hwf.seal, hgrows⟩
  | exhausted => trivial

/-- Every store that a run passes is well-formed and extends the one it started from. -/
theorem Meets.passes {P : Nat → Store → α → Prop} {p : Program α}
    {inside : Call → Store → Store → Prop} (hcalls : Promised carryOut)
    (hinside : ∀ (c : Call) (s t : Store), s.WellFormed s.records.size → c.Valid s →
      inside c s t → t.WellFormed t.records.size ∧ s.Extends s.records.size t)
    (hs : s.WellFormed base) (hp : p.Meets P base s) {t : Store}
    (ht : p.Passes carryOut inside s t) : t.WellFormed t.records.size ∧ s.Extends base t := by
  induction ht generalizing base with
  | start p s => exact ⟨hs.seal, .refl base s⟩
  | access _ ih =>
    obtain ⟨hwf, hext⟩ := ih (hp.1.wellFormed hs) hp.2
    exact ⟨hwf, (hp.1.grows hs).toExtends.trans hext (Nat.le_refl base)⟩
  | inside h =>
    obtain ⟨hwf, hext⟩ := hinside _ _ _ hs.seal hp.1 h
    exact ⟨hwf, hext.weaken hs.base_le⟩
  | reply hreply _ ih =>
    have hcall := hcalls _ _ hs.seal hp.1
    rw [hreply] at hcall
    obtain ⟨hwf, hgrows, hanswer⟩ := hcall
    obtain ⟨hwf', hext⟩ := ih hwf (hp.2 _ _ hwf hgrows hanswer)
    exact ⟨hwf', (hgrows.toExtends.trans hext hgrows.covers.records).weaken hs.base_le⟩

end Program

namespace Evaluator

variable {ev : Evaluator}

/-- What is left of a cell's computation is what the computation left, with the cell settled. -/
theorem settle_store? {c : CellId} {o : Outcome Value} {t : Store}
    (h : (settle c o).store? = some t) : ∃ u p, o.store? = some u ∧ t = u.setProgress c p := by
  cases o with
  | value v u =>
    cases h
    exact ⟨u, .finished v, rfl, rfl⟩
  | error e u =>
    cases h
    exact ⟨u, .pending, rfl, rfl⟩
  | exhausted => cases h

/-- A cell is settled with what its computation gave, or put back to be tried again. -/
theorem settle_kept {s : Store} {c : CellId} (hc : c < s.cells.size)
    (hpending : (s.cell c).progress = .pending) {o : Outcome Value}
    (ho : o.Kept (s.setProgress c .running) fun t v => v.Valid t) :
    (settle c o).Kept s ((Call.force c).Answered s) := by
  cases o with
  | value v t =>
    obtain ⟨hwf, hgrows, hv⟩ := ho
    have hunfinished (w : Value) : (t.cell c).progress ≠ .finished w := by
      rw [hgrows.running_start hc]
      rintro ⟨⟩
    refine ⟨hwf.setProgress hunfinished ?_, hgrows.settle hpending (by rintro ⟨⟩), ?_⟩
    · rintro w ⟨⟩
      exact hv
    · refine ⟨hv.mono (t.setProgress_covers c _), ?_, fun n hn hwaits => ?_⟩
      · have hct := Nat.lt_of_lt_of_le hc (by simpa using hgrows.covers.cells)
        simp [Store.setProgress_cell, hct]
      · exact hgrows.waiting n hn c hwaits (Store.setProgress_running_iff.2 (.inl ⟨rfl, hc⟩))
  | error e t =>
    obtain ⟨hwf, hgrows⟩ := ho
    have hunfinished (w : Value) : (t.cell c).progress ≠ .finished w := by
      rw [hgrows.running_start hc]
      rintro ⟨⟩
    exact ⟨hwf.setProgress hunfinished (by rintro w ⟨⟩), hgrows.settle hpending (by rintro ⟨⟩)⟩
  | exhausted => trivial

/-- With any fuel and at any depth, calls are answered as promised. -/
theorem carryOut_promised (hr : ev.registry.Sound) (fuel depth : Nat) :
    Program.Promised (ev.carryOut fuel depth) := by
  induction fuel generalizing depth with
  | zero => exact fun c s _ _ => trivial
  | succ fuel ih =>
    intro c s hs hc
    cases c with
    | perform task =>
      have hrun (depth : Nat) :
          ((ev.taskProgram task).run (ev.carryOut fuel depth) s).Kept s fun t v => v.Valid t :=
        Program.Ensures.run (ih depth) hs (taskProgram_givesValue hr hc)
      cases task with
      | evaluate e scope path =>
        rcases Nat.lt_or_ge depth ev.maxDepth with hdepth | hdepth
        · rw [carryOut_evaluate ev fuel s hdepth]
          exact (hrun (depth + 1)).through e.location
        · rw [carryOut_evaluate_deep ev fuel s hdepth]
          exact ⟨hs, .refl _ s⟩
      | element initializer index path location => exact (hrun depth).through location
      | constant v => exact ⟨hs, .refl _ s, hc⟩
    | force cell =>
      cases hprogress : (s.cell cell).progress with
      | finished v =>
        rw [carryOut_force_finished ev fuel depth hprogress]
        exact ⟨hs, .refl _ s, (hs.cell cell hc).value v hprogress, hprogress, fun _ _ h => h⟩
      | running =>
        rw [carryOut_force_running ev fuel depth hprogress]
        exact ⟨hs, .refl _ s⟩
      | pending =>
        rw [carryOut_force_pending ev fuel depth hprogress]
        exact settle_kept hc hprogress
          (ih depth (.perform _) _ (hs.start hprogress) (hs.task_valid hc))
    | render spec v => exact Program.Ensures.run (ih depth) hs (Render.value_ensures spec hc)
    | tie work visited =>
      exact Program.Ensures.run (ih depth) hs (Network.tieStep_ensures hc)

/-- The stores that carrying out a call passes. -/
def Passes (ev : Evaluator) : (fuel depth : Nat) → Call → Store → Store → Prop
  | 0, _, _, s, t => t = s
  | fuel + 1, depth, .perform (.evaluate e scope path), s, t =>
    t = s ∨ depth < ev.maxDepth ∧ (ev.taskProgram (.evaluate e scope path)).Passes
      (ev.carryOut fuel (depth + 1)) (ev.Passes fuel (depth + 1)) s t
  | fuel + 1, depth, .perform (.element initializer index path location), s, t =>
    (ev.taskProgram (.element initializer index path location)).Passes
      (ev.carryOut fuel depth) (ev.Passes fuel depth) s t
  | _ + 1, _, .perform (.constant _), s, t => t = s
  | fuel + 1, depth, .force cell, s, t =>
    t = s ∨ (s.cell cell).progress = .pending ∧
      (ev.Passes fuel depth (.perform (s.cell cell).task) (s.setProgress cell .running) t ∨
        (ev.carryOut (fuel + 1) depth (.force cell) s).store? = some t)
  | fuel + 1, depth, .render spec v, s, t =>
    (Render.value spec v).Passes (ev.carryOut fuel depth) (ev.Passes fuel depth) s t
  | fuel + 1, depth, .tie work visited, s, t =>
    (Network.tieStep work visited).Passes (ev.carryOut fuel depth) (ev.Passes fuel depth) s t

/-- The store that a call leaves is passed by carrying it out. -/
theorem passes_of_store? {fuel depth : Nat} {c : Call} {s t : Store}
    (ht : (ev.carryOut fuel depth c s).store? = some t) : ev.Passes fuel depth c s t := by
  induction fuel generalizing depth c s t with
  | zero =>
    rw [carryOut_zero] at ht
    cases ht
  | succ fuel ih =>
    have hrun {α : Type} {p : Program α} (depth : Nat)
        (ht : (p.run (ev.carryOut fuel depth) s).store? = some t) :
        p.Passes (ev.carryOut fuel depth) (ev.Passes fuel depth) s t :=
      Program.passes_of_store? ht fun _ _ _ => ih
    cases c with
    | perform task =>
      cases task with
      | evaluate e scope path =>
        rcases Nat.lt_or_ge depth ev.maxDepth with hdepth | hdepth
        · refine .inr ⟨hdepth, hrun _ ?_⟩
          rw [carryOut_evaluate ev fuel s hdepth] at ht
          exact (Outcome.store?_through _ _).symm.trans ht
        · rw [carryOut_evaluate_deep ev fuel s hdepth] at ht
          cases ht
          exact .inl rfl
      | element initializer index path location =>
        rw [carryOut_element] at ht
        exact hrun _ ((Outcome.store?_through _ _).symm.trans ht)
      | constant v =>
        cases ht
        exact rfl
    | force cell =>
      cases hprogress : (s.cell cell).progress with
      | finished v =>
        rw [carryOut_force_finished ev fuel depth hprogress] at ht
        cases ht
        exact .inl rfl
      | running =>
        rw [carryOut_force_running ev fuel depth hprogress] at ht
        cases ht
        exact .inl rfl
      | pending => exact .inr ⟨hprogress, .inr ht⟩
    | render spec v => exact hrun _ ht
    | tie work visited => exact hrun _ ht

/-- Whatever happens inside a call keeps the store well-formed and loses nothing, also after
    errors and when the run is given up. Calls are answered by running programs with less fuel,
    so what programs ensure holds of their runs. -/
theorem passes_keeps (hr : ev.registry.Sound) (fuel depth : Nat) (c : Call) (s t : Store)
    (hs : s.WellFormed s.records.size) (hc : c.Valid s) (ht : ev.Passes fuel depth c s t) :
    t.WellFormed t.records.size ∧ s.Extends s.records.size t := by
  have hsame {s t : Store} (hs : s.WellFormed s.records.size) (ht : t = s) :
      t.WellFormed t.records.size ∧ s.Extends s.records.size t := by
    subst ht
    exact ⟨hs, .refl _ t⟩
  induction fuel generalizing depth c s t with
  | zero => exact hsame hs ht
  | succ fuel ih =>
    have hpasses {α : Type} {p : Program α} {P : Nat → Store → α → Prop} (depth : Nat)
        (hp : p.Ensures s.records.size s P)
        (ht : p.Passes (ev.carryOut fuel depth) (ev.Passes fuel depth) s t) :
        t.WellFormed t.records.size ∧ s.Extends s.records.size t :=
      Program.Meets.passes (carryOut_promised hr fuel depth) (ih depth) hs (hp hs) ht
    cases c with
    | perform task =>
      have htask : task.Valid s := hc
      cases task with
      | evaluate e scope path =>
        rcases ht with ht | ⟨-, ht⟩
        · exact hsame hs ht
        · exact hpasses _ (taskProgram_givesValue hr htask) ht
      | element initializer index path location =>
        exact hpasses _ (taskProgram_givesValue hr htask) ht
      | constant v => exact hsame hs ht
    | force cell =>
      rcases ht with ht | ⟨hpending, ht | ht⟩
      · exact hsame hs ht
      · obtain ⟨hwf, hext⟩ :=
          ih depth (.perform _) _ t (hs.start hpending) (hs.task_valid hc) ht
        exact ⟨hwf, (s.start_extends _ hpending).trans hext (Nat.le_refl _)⟩
      · have hkept := (carryOut_promised hr (fuel + 1) depth (.force cell) s hs hc).of_store? ht
        exact ⟨hkept.1, hkept.2.toExtends⟩
    | render spec v => exact hpasses _ (Render.value_ensures spec hc) ht
    | tie work visited => exact hpasses _ (Network.tieStep_ensures hc) ht

end Evaluator

end NetDesc
