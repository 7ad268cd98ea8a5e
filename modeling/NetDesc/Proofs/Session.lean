import NetDesc.Proofs.Run.Keeps
import NetDesc.Session

namespace NetDesc

theorem Evaluator.wholeTree_givesValue (ev : Evaluator) (root : Expr) {base : Nat} {s : Store} :
    (ev.wholeTree root).GivesValue base s := by
  have hparent : ∀ p, (none : Option RecordId) = some p → p < s.records.size := by
    rintro p ⟨⟩
  refine .bind (Program.newRecord_ensures hparent) ?_
  exact fun b t scope _ _ _ hscope => Program.evaluate_givesValue root hscope.2 ev.rootPath

/-- What one may ask an evaluator for. -/
inductive Request where
  | evaluate (root : Expr)
  | member (v : Value) (name : String) (location : Location)
  | force (c : CellId)
  | index (a : LazyArray) (index : Int64) (location : Location)
  | call (f : Function) (args : List Value) (named : List (String × Value)) (path : String)
      (location : Location)
  | operate (site : Site) (left right : Value)
  | construct (typeName : String) (fields : RecordId) (location : Location) (path : String)
  | format (v : Value) (how : String)
  | finalize (roots : List Object)

namespace Request

/-- What a request refers to is there. -/
def Valid (s : Store) : Request → Prop
  | evaluate _ => True
  | member v _ _ => v.Valid s
  | force c => c < s.cells.size
  | index a _ _ => ∀ c ∈ a.cells, c < s.cells.size
  | call f args named _ _ =>
    f.Valid s ∧ (∀ v ∈ args, v.Valid s) ∧ ∀ p ∈ named, p.2.Valid s
  | operate _ left right => left.Valid s ∧ right.Valid s
  | construct _ fields _ _ => fields < s.records.size
  | format v _ => v.Valid s
  | finalize roots => ∀ o ∈ roots, o.Valid s

/-- What is run for a request, apart from the answer. -/
def program (ev : Evaluator) : Request → Program Unit
  | evaluate root => do let _ ← ev.wholeTree root
  | member v name location => do let _ ← Program.memberOf v name location
  | force c => do let _ ← Program.force c
  | index a i location => do let _ ← Evaluator.elementAt a i location
  | call f args named path location => do let _ ← f.apply args named path location
  | operate site left right => do let _ ← Operator.apply ev.registry site left right
  | construct typeName fields location path => do
    let _ ← ev.registry.construct typeName fields location path
  | format v how => do let _ ← Program.render (← FormatSpec.parse how v.location) v
  | finalize roots => do let _ ← Program.tie roots []

/-- Every step of a request is allowed. -/
theorem program_ensures {ev : Evaluator} (hev : ev.registry.Sound) {r : Request} {base : Nat}
    {s : Store} (hr : r.Valid s) : (r.program ev).Ensures base s fun _ _ _ => True := by
  have hdrop {α : Type} {p : Program α} {P : Nat → Store → α → Prop} (hp : p.Ensures base s P) :
      Program.Ensures (do let _ ← p) base s fun _ _ _ => True :=
    .bind hp fun _ _ _ _ _ _ _ => .pure trivial
  cases r with
  | evaluate root => exact hdrop (ev.wholeTree_givesValue root)
  | member v name location => exact hdrop (Program.memberOf_givesValue hr name location)
  | force c => exact hdrop (Program.force_ensures hr)
  | index a i location => exact hdrop (Evaluator.elementAt_givesValue hr i location)
  | call f args named path location =>
    exact hdrop (Function.apply_givesValue hr.1 hr.2.1 hr.2.2 path location)
  | operate site left right => exact hdrop (Operator.apply_givesValue hev site hr.1 hr.2)
  | construct typeName fields location path =>
    exact hdrop (Registry.construct_givesValue hev typeName hr location path)
  | format v how =>
    refine .check fun spec _ => ?_
    exact hdrop (Program.render_ensures spec hr)
  | finalize roots => exact hdrop (Network.tie_ensures fun o ho => hr o (by simpa using ho))

end Request

namespace Evaluator

/-- The stores that answering a request passes, the last one included. -/
def Serves (ev : Evaluator) (fuel : Nat) (r : Request) (s t : Store) : Prop :=
  (r.program ev).Passes (ev.carryOut fuel 0) (ev.Passes fuel 0) s t

theorem serves_of_store? {ev : Evaluator} {fuel : Nat} {r : Request} {s t : Store}
    (ht : (ev.run fuel (r.program ev) s).store? = some t) : ev.Serves fuel r s t :=
  Program.passes_of_store? ht fun _ _ _ => passes_of_store?

end Evaluator

/-- The stores that requests leave, starting from nothing. Each request works on the store that
    the one before has left, however that one ended, and refers to what is there already. -/
inductive Session (registry : Registry) : Store → Prop
  | start : Session registry {}
  | request {s t : Store} (hs : Session registry s) {ev : Evaluator} (hev : ev.registry = registry)
      {r : Request} (hr : r.Valid s) {fuel : Nat}
      (ht : (ev.run fuel (r.program ev) s).store? = some t) :
      Session registry t

namespace Session

variable {registry : Registry} {s t : Store}

theorem wellFormed (hregistry : registry.Sound) (hs : Session registry s) :
    s.WellFormed s.records.size := by
  induction hs with
  | start => exact Store.wellFormed_empty
  | @request s t _ ev hev r hr fuel ht ih =>
    have hsound : ev.registry.Sound := hev ▸ hregistry
    have hrun : (ev.run fuel (r.program ev) s).Kept s fun _ _ => True :=
      (Request.program_ensures hsound hr).run (Evaluator.carryOut_promised hsound fuel 0) ih
    exact (hrun.of_store? ht).1

/-- While a request is answered the store stays well-formed, and nothing is lost. -/
theorem serves_keeps (hregistry : registry.Sound) (hs : Session registry s) {ev : Evaluator}
    (hev : ev.registry = registry) {r : Request} (hr : r.Valid s) {fuel : Nat}
    (ht : ev.Serves fuel r s t) : t.WellFormed t.records.size ∧ s.Extends s.records.size t := by
  have hsound : ev.registry.Sound := hev ▸ hregistry
  have hwf := hs.wellFormed hregistry
  exact Program.Meets.passes (Evaluator.carryOut_promised hsound fuel 0)
    (Evaluator.passes_keeps hsound fuel 0) hwf (Request.program_ensures hsound hr hwf) ht

end Session

end NetDesc
