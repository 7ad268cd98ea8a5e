import NetDesc.Proofs.Run.Fuel

namespace NetDesc

open Outcome (Eventually)

namespace EvalError

/-- Whether evaluation stopped at a cell that depends on its own value. -/
def IsCyclic (e : EvalError) : Prop :=
  ∃ path, e.cause = .cyclicEvaluation path

theorem IsCyclic.through {e : EvalError} (he : e.IsCyclic) (location : Location) :
    (e.through location).IsCyclic := by
  rw [IsCyclic, through_cause]
  exact he

end EvalError

namespace Outcome

variable {α : Type} {P Q : Store → α → Prop} {E F : Prop} {o : Outcome α}

/-- A result with `P`, or a cell that depends on its own value, which takes `E`. -/
def Concludes (P : Store → α → Prop) (E : Prop) : Outcome α → Prop
  | value a t => P t a
  | error e _ => e.IsCyclic ∧ E
  | exhausted => False

theorem Concludes.imp (ho : o.Concludes P E) (hPQ : ∀ t a, P t a → Q t a) (hEF : E → F) :
    o.Concludes Q F := by
  cases o with
  | value a t => exact hPQ t a ho
  | error e t => exact ho.imp_right hEF
  | exhausted => exact ho

theorem Concludes.through (ho : o.Concludes P E) (location : Location) :
    (o.through location).Concludes P E := by
  cases o with
  | value a t => exact ho
  | error e t => exact ⟨ho.1.through location, ho.2⟩
  | exhausted => exact ho

end Outcome

namespace Program

variable {α β : Type} {ev : Evaluator} {depth : Nat} {s : Store} {P : Store → α → Prop}
  {Q : Store → β → Prop} {E F : Prop}

/-- With enough fuel the run ends as `Outcome.Concludes` says. Fuel is no limit of the language,
    but depth is, so this is said of a run at some depth. -/
def Ends (ev : Evaluator) (depth : Nat) (p : Program α) (s : Store) (P : Store → α → Prop)
    (E : Prop) : Prop :=
  ∃ o, Eventually (fun fuel => p.run (ev.carryOut fuel depth) s) o ∧ o.Concludes P E

/-- A run that always goes on as another one does. -/
theorem Ends.congr {p p' : Program α} {s' : Store} (h : p'.Ends ev depth s' P E)
    (hrun : ∀ carryOut, p.run carryOut s = p'.run carryOut s') : p.Ends ev depth s P E := by
  obtain ⟨o, ho, hconcludes⟩ := h
  exact ⟨o, by simpa only [hrun] using ho, hconcludes⟩

namespace Ends

theorem imp {Q : Store → α → Prop} {p : Program α} (h : p.Ends ev depth s P E)
    (hPQ : ∀ t a, P t a → Q t a) (hEF : E → F) : p.Ends ev depth s Q F := by
  obtain ⟨o, ho, hconcludes⟩ := h
  exact ⟨o, ho, hconcludes.imp hPQ hEF⟩

theorem pure {a : α} (ha : P s a) : (Pure.pure a : Program α).Ends ev depth s P E :=
  ⟨.value a s, ⟨0, fun _ _ => rfl⟩, ha⟩

theorem step {a : Access} {P : Store → a.Reply → Prop} (ha : P (a.perform s).2 (a.perform s).1) :
    (Program.step a).Ends ev depth s P E :=
  ⟨.value (a.perform s).1 (a.perform s).2, ⟨0, fun _ _ => rfl⟩, ha⟩

/-- A step comes before what the program does with its answer. -/
theorem after {a : Access} {f : a.Reply → Program β}
    (h : (f (a.perform s).1).Ends ev depth (a.perform s).2 Q E) :
    (Program.step a >>= f).Ends ev depth s Q E :=
  h.congr fun _ => rfl

theorem readRecord {r : RecordId} {f : Record → Program β}
    (h : (f (s.record r)).Ends ev depth s Q E) :
    (Program.readRecord r >>= f).Ends ev depth s Q E :=
  after h

theorem readNode {n : NodeId} {f : Node → Program β} (h : (f (s.node n)).Ends ev depth s Q E) :
    (Program.readNode n >>= f).Ends ev depth s Q E :=
  after h

/-- The second program starts from where the first one may have ended. -/
theorem bind {p : Program α} {f : α → Program β} (hp : p.Ends ev depth s P E)
    (hf : ∀ t a, P t a → (f a).Ends ev depth t Q E) : (p >>= f).Ends ev depth s Q E := by
  obtain ⟨o, ⟨n, hn⟩, hconcludes⟩ := hp
  cases o with
  | value a t =>
    obtain ⟨o, ⟨m, hm⟩, ho⟩ := hf t a hconcludes
    refine ⟨o, ⟨n + m, fun fuel hfuel => ?_⟩, ho⟩
    simp only [run_bind, hn fuel (by omega), Outcome.bind]
    exact hm fuel (by omega)
  | error e t =>
    refine ⟨.error e t, ⟨n, fun fuel hfuel => ?_⟩, hconcludes⟩
    simp only [run_bind, hn fuel hfuel, Outcome.bind]
  | exhausted => exact hconcludes.elim

/-- A check that passes comes before what the program does with what passes it. -/
theorem check {x : Except EvalError α} {f : α → Program β} {a : α} (hx : x = .ok a)
    (hf : (f a).Ends ev depth s Q E) : (Program.ofExcept x >>= f).Ends ev depth s Q E := by
  subst hx
  exact hf

section Calls

variable {e : Expr} {scope : RecordId} {path : String} {c : CellId} {P : Store → Value → Prop}

theorem call {c : Call} {P : Store → c.Reply → Prop} {o : Outcome c.Reply}
    (ho : Eventually (fun fuel => ev.carryOut fuel depth c s) o) (hconcludes : o.Concludes P E) :
    (Program.call c .done).Ends ev depth s P E := by
  obtain ⟨n, hn⟩ := ho
  exact ⟨o, ⟨n, fun fuel hfuel => (run_call _ c s).trans (hn fuel hfuel)⟩, hconcludes⟩

/-- Expressions that are not nested too deep are evaluated one level deeper. -/
theorem evaluate (hdepth : depth < ev.maxDepth)
    (h : (ev.evaluateKind e.kind e.location scope path).Ends ev (depth + 1) s P E) :
    (Program.evaluate e scope path).Ends ev depth s P E := by
  obtain ⟨o, ho, hconcludes⟩ := h
  refine call (c := .perform (.evaluate e scope path)) ?_ (hconcludes.through e.location)
  exact (ho.through e.location).congr fun n => ev.carryOut_evaluate n s hdepth e scope path

theorem force_finished {v : Value} (hc : (s.cell c).progress = .finished v) (hv : P s v) :
    (Program.force c).Ends ev depth s P E :=
  call (c := .force c) (o := .value v s) (.congr (g := fun _ => .value v s) ⟨0, fun _ _ => rfl⟩
    fun n => ev.carryOut_force_finished n depth hc) hv

/-- A cell that is forced while it is computed depends on its own value. -/
theorem force_running (hc : (s.cell c).progress = .running) (hE : E) :
    (Program.force c).Ends ev depth s P E :=
  call (.congr (g := fun _ => .error (s.cell c).cyclic s) ⟨0, fun _ _ => rfl⟩
    fun n => ev.carryOut_force_running n depth hc) ⟨⟨_, rfl⟩, hE⟩

/-- A cell is computed on the first access. -/
theorem force_pending (hc : (s.cell c).progress = .pending)
    (h : (Program.perform (s.cell c).task).Ends ev depth (s.setProgress c .running)
      (fun t v => P (t.setProgress c (.finished v)) v) E) :
    (Program.force c).Ends ev depth s P E := by
  obtain ⟨o, ⟨n, hn⟩, hconcludes⟩ := h
  have hperform : Eventually (fun fuel => (ev.carryOut fuel depth (.perform (s.cell c).task)
      (s.setProgress c .running) : Outcome Value)) o :=
    ⟨n, fun fuel hfuel => (run_call _ _ _).symm.trans (hn fuel hfuel)⟩
  refine call (c := .force c) (o := Evaluator.settle c o) ?_ ?_
  · exact (hperform.settle c).congr fun n => ev.carryOut_force_pending n depth hc
  cases o with
  | value v t => exact hconcludes
  | error e t => exact hconcludes
  | exhausted => exact hconcludes

theorem tie {work visited : List Object} {P : Store → List Object → Prop}
    (h : (Network.tieStep work visited).Ends ev depth s P E) :
    (Program.tie work visited).Ends ev depth s P E := by
  obtain ⟨o, ho, hconcludes⟩ := h
  exact call (ho.congr fun _ => rfl) hconcludes

end Calls

end Ends

end Program

end NetDesc
