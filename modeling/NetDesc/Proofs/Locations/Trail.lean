import Mathlib.Data.List.Destutter
import NetDesc.Proofs.Locations.Erasure
import NetDesc.Proofs.Variation.Run

namespace NetDesc

/-- The error has not passed through any expression yet. -/
def EvalError.IsFresh (e : EvalError) : Prop :=
  e.trail = #[]

/-- What is open after an event, innermost first. -/
def Event.frames (around : List Location) : Event → List Location
  | entered location => location :: around
  | left => around.tail
  | _ => around

/-- What is open after a history: the locations that were entered and not left again, innermost
    first, inside those that were open before. -/
def openFrames (around : List Location) (events : List Event) : List Location :=
  events.foldl Event.frames around

def Event.error? : Event → Option EvalError
  | raised e => some e
  | _ => none

/-- The errors that are raised in a history. -/
def raises (events : List Event) : List EvalError :=
  events.filterMap Event.error?

/-- Known locations without immediate repeats. -/
def collapse (locations : List Location) : List Location :=
  (locations.filter (!·.isUnknown)).destutter (· ≠ ·)

theorem openFrames_append (around : List Location) (events more : List Event) :
    openFrames around (events ++ more) = openFrames (openFrames around events) more :=
  List.foldl_append

theorem raises_append (events more : List Event) :
    raises (events ++ more) = raises events ++ raises more :=
  List.filterMap_append

/-- Nothing is raised, and what is entered is left again. -/
structure Balanced (events : List Event) : Prop where
  raises : raises events = []
  frames : ∀ around, openFrames around events = around

namespace Balanced

variable {events more : List Event}

theorem nil : Balanced [] := ⟨rfl, fun _ => rfl⟩

theorem append (h : Balanced events) (hmore : Balanced more) : Balanced (events ++ more) where
  raises := by rw [raises_append, h.raises, hmore.raises, List.append_nil]
  frames around := by rw [openFrames_append, h.frames, hmore.frames]

theorem entered (h : Balanced events) (location : Location) :
    Balanced (.entered location :: events ++ [.left]) where
  raises := by
    rw [raises_append]
    exact (List.append_nil _).trans h.raises
  frames around := by
    rw [openFrames_append]
    exact congrArg List.tail (h.frames (location :: around))

end Balanced

/-- Once `e` has been raised what is open is left, innermost first, and that is all. The error
    has then passed through everything that was open when it was raised. -/
inductive Unwound : List Event → EvalError → Prop
  | intro {before after : List Event} {e : EvalError} {passed : List Location}
      (hbefore : raises before = []) (hafter : raises after = []) (he : e.IsFresh)
      (hpassed : ∀ around, openFrames around before = passed ++ around) :
      Unwound (before ++ .raised e :: after) (passed.foldl EvalError.through e)

namespace Unwound

variable {events more : List Event} {e : EvalError}

theorem raise (he : e.IsFresh) : Unwound [.raised e] e :=
  @intro [] [] e [] rfl rfl he fun _ => rfl

theorem after (hmore : Balanced more) (h : Unwound events e) : Unwound (more ++ events) e := by
  cases h with
  | intro hbefore hafter he hpassed =>
    rw [← List.append_assoc]
    refine .intro (by rw [raises_append, hmore.raises, hbefore, List.append_nil]) hafter he ?_
    intro around
    rw [openFrames_append, hmore.frames, hpassed]

theorem append (h : Unwound events e) (hmore : raises more = []) : Unwound (events ++ more) e := by
  cases h with
  | intro hbefore hafter he hpassed =>
    rw [List.append_assoc, List.cons_append]
    refine .intro hbefore ?_ he hpassed
    rw [raises_append, hafter, hmore, List.append_nil]

theorem entered (h : Unwound events e) (location : Location) :
    Unwound (.entered location :: events ++ [.left]) (e.through location) := by
  refine append ?_ rfl
  cases h with
  | @intro before after e passed hbefore hafter he hpassed =>
    have hthrough : (passed.foldl EvalError.through e).through location =
        (passed ++ [location]).foldl EvalError.through e := by
      rw [List.foldl_append]
      rfl
    rw [hthrough]
    refine @intro (.entered location :: before) after e _ hbefore hafter he fun around => ?_
    rw [List.append_assoc]
    exact hpassed (location :: around)

end Unwound

/-- A run that gives a value leaves everything it enters, and a failing one unwinds. -/
def Unwinds (events : List Event) {α : Type} : Outcome α → Prop
  | .value _ _ => Balanced events
  | .error e _ => Unwound events e
  | .exhausted => True

namespace Unwinds

variable {events more : List Event} {α : Type} {o : Outcome α}

theorem append (h : Balanced events) (ho : Unwinds more o) : Unwinds (events ++ more) o := by
  cases o with
  | value a s => exact h.append ho
  | error e s => exact ho.after h
  | exhausted => trivial

theorem entered (h : Unwinds events o) (location : Location) :
    Unwinds (.entered location :: events ++ [.left]) (o.through location) := by
  cases o with
  | value a s => exact Balanced.entered h location
  | error e s => exact Unwound.entered h location
  | exhausted => trivial

end Unwinds

theorem Access.history_balanced (a : Access) (s : Store) : Balanced (a.history s) := by
  cases a <;> exact ⟨rfl, fun _ => rfl⟩

/-- Nothing is idle. -/
theorem Task.not_idle_erasure (task : Task) : ¬task.Idle .erasure := by
  cases task <;> exact fun h => h

/-- Whatever a call is answered, there is an answer without locations. -/
theorem Call.Varies.exists_reply {c c' : Call} (h : c.Varies .erasure c') (reply : c.Reply) :
    ∃ reply', c.RepliesVary .erasure c' reply reply' := by
  cases h with
  | @perform task task' h =>
    exact ⟨Value.unlocated reply, task.not_idle_erasure, Value.varies_erasure_iff.2 rfl⟩
  | force cell => exact ⟨Value.unlocated reply, Value.varies_erasure_iff.2 rfl⟩
  | render spec h => exact ⟨reply, rfl⟩
  | tie work visited => exact ⟨reply, rfl⟩

/-- Programs unwind if the calls they make do: an error is raised as it is, and nothing that fails
    is tried again. -/
theorem Program.Varies.unwinds {α β : Type} {Q : α → β → Prop} {p : Program α} {q : Program β}
    {carryOut : (c : Call) → Store → Outcome c.Reply} {inside : Call → Store → List Event}
    (hcalls : ∀ c s, Unwinds (inside c s) (carryOut c s)) (hpq : p.Varies .erasure Q q)
    (s : Store) : Unwinds (p.history carryOut inside s) (p.run carryOut s) := by
  induction hpq generalizing s with
  | done h => exact Balanced.nil
  | raise cause h => exact Unwound.raise rfl
  | @access a _ _ _ _ _ ih =>
    exact .append (a.history_balanced s) (ih s s.unlocated (Store.varies_erasure_iff.2 rfl) _)
  | @call c _ hc _ _ _ ih =>
    have hcall := hcalls c s
    rw [Program.run, history]
    cases hreply : carryOut c s with
    | value reply t =>
      rw [hreply] at hcall
      obtain ⟨reply', hreply'⟩ := hc.exists_reply reply
      exact .append hcall (ih reply reply' hreply' t)
    | error e t =>
      rw [hreply] at hcall
      rw [List.append_nil]
      exact hcall
    | exhausted => trivial

namespace Evaluator

variable {ev : Evaluator}

theorem settle_unwinds (c : CellId) {events : List Event} {o : Outcome Value}
    (h : Unwinds events o) :
    Unwinds (.started c :: events ++ ending c o) (settle c o) := by
  have hstarted : Balanced [.started c] := ⟨rfl, fun _ => rfl⟩
  cases o with
  | value v s => exact (hstarted.append h).append ⟨rfl, fun _ => rfl⟩
  | error e s => exact (Unwound.after hstarted h).append rfl
  | exhausted => trivial

/-- With any fuel and at any depth, a call unwinds. -/
theorem carryOut_unwinds (hev : ev.registry.Placeless) (fuel depth : Nat) (c : Call) (s : Store) :
    Unwinds (ev.history fuel depth c s) (ev.carryOut fuel depth c s) := by
  induction fuel generalizing depth c s with
  | zero =>
    rw [carryOut_zero]
    trivial
  | succ fuel ih =>
    cases c with
    | perform task =>
      have htask : task.Varies .erasure task.unlocated := Task.varies_erasure_iff.2 rfl
      have hrun (depth : Nat) :=
        (taskProgram_varies (hev _) htask task.not_idle_erasure).unwinds (ih depth) s
      cases task with
      | evaluate e scope path =>
        rcases Nat.lt_or_ge depth ev.maxDepth with hdepth | hdepth
        · rw [carryOut_evaluate ev fuel s hdepth, history_evaluate ev fuel s hdepth]
          exact (hrun (depth + 1)).entered e.location
        · rw [carryOut_evaluate_deep ev fuel s hdepth, history_evaluate_deep ev fuel s hdepth]
          exact Unwound.raise rfl
      | element initializer index path location => exact (hrun depth).entered location
      | constant v => exact Balanced.nil
    | force cell =>
      cases hprogress : (s.cell cell).progress with
      | finished v =>
        rw [carryOut_force_finished ev fuel depth hprogress,
          history_force_finished ev fuel depth hprogress]
        exact ⟨rfl, fun _ => rfl⟩
      | running =>
        rw [carryOut_force_running ev fuel depth hprogress,
          history_force_running ev fuel depth hprogress]
        have hrefused : Balanced [.refused cell] := ⟨rfl, fun _ => rfl⟩
        exact Unwound.after hrefused (.raise rfl)
      | pending =>
        rw [carryOut_force_pending ev fuel depth hprogress,
          history_force_pending ev fuel depth hprogress]
        exact settle_unwinds cell (ih depth (.perform (s.cell cell).task) _)
    | render spec v =>
      have hv : v.Varies .erasure v.unlocated := Value.varies_erasure_iff.2 rfl
      exact (Render.value_varies spec hv).unwinds (ih depth) s
    | tie work visited => exact (Network.tieStep_varies work visited).unwinds (ih depth) s

end Evaluator

namespace EvalError

theorem getLast?_eq_lastLocation (e : EvalError) :
    (e.location :: e.trail.toList).getLast? = some e.lastLocation := by
  rw [List.getLast?_cons, Array.getLast?_toList]
  rfl

/-- Passing through locations collapses them: `last`, the last location that the error keeps so far,
    decides whether the next one is a repeat. -/
theorem trail_foldl_through {e : EvalError} {kept : List Location} {last : Location}
    (hknown : e.location.isUnknown = false)
    (hkept : e.location :: e.trail.toList = kept ++ [last]) (passed : List Location) :
    (passed.foldl through e).location :: (passed.foldl through e).trail.toList =
      kept ++ (passed.filter (!·.isUnknown)).destutter' (· ≠ ·) last := by
  induction passed generalizing e kept last with
  | nil => exact hkept
  | cons location passed ih =>
    have hlast : e.lastLocation = last := by
      have h := e.getLast?_eq_lastLocation
      rw [hkept, List.getLast?_concat] at h
      exact (Option.some.inj h).symm
    rw [List.foldl_cons]
    cases hlocation : location.isUnknown with
    | true =>
      have hthrough : e.through location = e := if_pos hlocation
      rw [hthrough, List.filter_cons_of_neg (by simp [hlocation])]
      exact ih hknown hkept
    | false =>
      rw [List.filter_cons_of_pos (by simp [hlocation])]
      by_cases hrepeat : last = location
      · have hthrough : e.through location = e := by
          simp [through, hlocation, hknown, hlast, hrepeat]
        rw [hthrough, List.destutter'_cons_neg _ (not_not.2 hrepeat)]
        exact ih hknown hkept
      · have hthrough : e.through location = { e with trail := e.trail.push location } := by
          simp [through, hlocation, hknown, hlast, hrepeat]
        rw [hthrough, List.destutter'_cons_pos _ hrepeat]
        have hpush : e.location :: (e.trail.push location).toList =
            (kept ++ [last]) ++ [location] := by
          rw [Array.toList_push, ← hkept]
          rfl
        have hrest := ih (e := { e with trail := e.trail.push location }) hknown hpush
        rwa [List.append_assoc] at hrest

/-- An error that has passed through locations since it was raised keeps those that are known, its
    own one first, without immediate repeats. -/
theorem locations_foldl_through {e : EvalError} (he : e.IsFresh) (passed : List Location) :
    (passed.foldl through e).locations = collapse (e.location :: passed) := by
  have hstart {e : EvalError} (he : e.IsFresh) (hknown : e.location.isUnknown = false)
      (passed : List Location) :
      (passed.foldl through e).locations = collapse (e.location :: passed) := by
    have hkept : e.location :: e.trail.toList = [] ++ [e.location] := by rw [he]; rfl
    unfold locations collapse
    rw [trail_foldl_through hknown hkept, List.filter_cons_of_pos (by simp [hknown])]
    refine List.filter_eq_self.2 fun l hl => ?_
    have hl := (List.destutter'_sublist _ _ _).subset hl
    rcases List.mem_cons.1 hl with rfl | hl
    · simp [hknown]
    · exact (List.mem_filter.1 hl).2
  induction passed generalizing e with
  | nil =>
    cases hknown : e.location.isUnknown with
    | true =>
      have htrail : e.trail = #[] := he
      simp [locations, collapse, hknown, htrail]
    | false => exact hstart he hknown []
  | cons location passed ih =>
    cases hknown : e.location.isUnknown with
    | true =>
      rw [List.foldl_cons]
      cases hlocation : location.isUnknown with
      | true =>
        have hthrough : e.through location = e := if_pos hlocation
        rw [hthrough, ih he]
        simp [collapse, hknown, hlocation]
      | false =>
        have hthrough : e.through location = { e with location } := by
          simp [through, hlocation, hknown]
        rw [hthrough, hstart (e := { e with location }) he hlocation]
        simp [collapse, hknown]
    | false => exact hstart he hknown _

theorem cause_foldl_through (e : EvalError) (passed : List Location) :
    (passed.foldl through e).cause = e.cause := by
  induction passed generalizing e with
  | nil => rfl
  | cons location passed ih => rw [List.foldl_cons, ih, through_cause]

end EvalError

namespace Evaluator

theorem topLevel_unwinds {ev : Evaluator} (hev : ev.registry.Placeless) (fuel : Nat)
    (root : Expr) (s : Store) :
    Unwinds (ev.topLevelHistory fuel root s) (ev.evaluateTopLevel fuel root s) := by
  have hroot : Variation.erasure.expr root root.unlocated := rfl
  exact (ev.wholeTree_varies hroot).unwinds (carryOut_unwinds hev fuel 0) s

theorem member_unwinds {ev : Evaluator} (hev : ev.registry.Placeless) (fuel : Nat) (root : Expr)
    (name : String) (s : Store) :
    Unwinds (ev.memberHistory fuel root name s) (ev.evaluateMember fuel root name s) := by
  have htop := topLevel_unwinds hev fuel root s
  unfold memberHistory evaluateMember
  cases hv : ev.evaluateTopLevel fuel root s with
  | value v t =>
    rw [hv] at htop
    have hv : v.Varies .erasure v.unlocated := Value.varies_erasure_iff.2 rfl
    have hfetch := (Program.memberOf_varies hv name (l := root.location) rfl).unwinds
      (carryOut_unwinds hev fuel 0) t
    exact .append htop (hfetch.entered root.location)
  | error e t =>
    rw [hv] at htop
    rw [List.append_nil]
    exact htop
  | exhausted => trivial

end Evaluator

/-- The error `e` is what is left of the only error that was raised in a history: it has the same
    cause, and its locations are those of the raised error and of all that was open then. -/
def TracesBack (events : List Event) (e : EvalError) : Prop :=
  ∃ (before after : List Event) (raised : EvalError),
    events = before ++ .raised raised :: after ∧ raises before = [] ∧ raises after = [] ∧
      raised.trail = #[] ∧ e.cause = raised.cause ∧
        e.locations = collapse (raised.location :: openFrames [] before)

theorem Unwound.tracesBack {events : List Event} {e : EvalError} (h : Unwound events e) :
    TracesBack events e := by
  cases h with
  | @intro before after raised passed hbefore hafter hraised hpassed =>
    refine ⟨before, after, raised, rfl, hbefore, hafter, hraised,
      raised.cause_foldl_through passed, ?_⟩
    rw [EvalError.locations_foldl_through hraised, hpassed, List.append_nil]

namespace Evaluator

/-- An error that an evaluation fails with has the cause it was raised with, and traces back to
    where it was raised through every expression and element that had been entered and not left. -/
theorem failure_traces_back {ev : Evaluator} (hev : ev.registry = .standard) (fuel : Nat)
    (root : Expr) (s : Store) :
    (∀ e t, ev.evaluateTopLevel fuel root s = .error e t →
      TracesBack (ev.topLevelHistory fuel root s) e) ∧
      ∀ name e t, ev.evaluateMember fuel root name s = .error e t →
        TracesBack (ev.memberHistory fuel root name s) e := by
  have hplaceless : ev.registry.Placeless := hev ▸ Registry.standard_placeless
  constructor
  · intro e t he
    have h := topLevel_unwinds hplaceless fuel root s
    rw [he] at h
    exact Unwound.tracesBack h
  · intro name e t he
    have h := member_unwinds hplaceless fuel root name s
    rw [he] at h
    exact Unwound.tracesBack h

/-- A tree whose member on line two stands for the one on line three, which refers to nothing. -/
def danglingExpr : Expr :=
  (Expr.ofMembers
    [.ofName "a" ((Expr.ofName "b").located (.ofLine 2 5)),
      .ofName "b" ((Expr.ofName "c").located (.ofLine 3 5))]).located (.ofLine 1 1)

/-- The error leads from line three through line two to the tree. -/
theorem failure_traces_back_dangling :
    ∃ e t, ({} : Evaluator).evaluateMember 20 danglingExpr "a" {} = .error e t ∧
      e.locations = [.ofLine 3 5, .ofLine 2 5, .ofLine 1 1] ∧
        TracesBack (({} : Evaluator).memberHistory 20 danglingExpr "a" {}) e := by
  have hfails : (({} : Evaluator).evaluateMember 20 danglingExpr "a" {}).error?.map
      (·.1.locations) = some [.ofLine 3 5, .ofLine 2 5, .ofLine 1 1] := by
    decide +kernel
  obtain ⟨⟨e, t⟩, herror, hlocations⟩ := Option.map_eq_some_iff.1 hfails
  have hrun := Outcome.error?_eq_some herror
  exact ⟨e, t, hrun, hlocations, (failure_traces_back rfl 20 danglingExpr {}).2 "a" e t hrun⟩

end Evaluator

end NetDesc
