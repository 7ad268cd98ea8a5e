import NetDesc.Proofs.Run.Reaches

namespace NetDesc

namespace Program

variable {α β : Type} {P : Call → Prop}

/-- Every call that the program may make is one of these, whatever the answers are. -/
def Calls (P : Call → Prop) : Program α → Prop
  | done _ => True
  | raise _ => True
  | access _ next => ∀ reply, (next reply).Calls P
  | call c next => P c ∧ ∀ reply, (next reply).Calls P

theorem Calls.bind {x : Program α} {f : α → Program β} (hx : x.Calls P)
    (hf : ∀ a, (f a).Calls P) : (x >>= f).Calls P := by
  change (x.bind f).Calls P
  induction x with
  | done result => exact hf result
  | raise e => trivial
  | access a next ih => exact fun reply => ih reply (hx reply)
  | call c next ih => exact ⟨hx.1, fun reply => ih reply (hx.2 reply)⟩

theorem calls_trivial (x : Program α) : x.Calls fun _ => True := by
  induction x with
  | done result => trivial
  | raise e => trivial
  | access a next ih => exact ih
  | call c next ih => exact ⟨trivial, ih⟩

theorem Calls.reaches {carryOut : (c : Call) → Store → Outcome c.Reply} {x : Program α}
    {s t : Store} {c : Call} {next : c.Reply → Program α} (hx : x.Calls P)
    (h : x.Reaches carryOut s (.call c next) t) : P c := by
  generalize hy : Program.call c next = y at h
  induction h with
  | start x s =>
    subst hy
    exact hx.1
  | access _ ih => exact ih (hx _) hy
  | reply _ _ ih => exact ih (hx.2 _) hy

end Program

namespace Function

open Program (Calls)

variable {P : Call → Prop}

theorem bindPositional_calls (scope : RecordId) (args : List (String × Value)) :
    (bindPositional scope args).Calls P := by
  induction args with
  | nil => trivial
  | cons x rest ih => exact Calls.bind (fun _ _ => trivial) fun _ => ih

theorem bindDefaults_calls (scope : RecordId) (passed : List (String × Value))
    (defaults : List (String × CellId)) : (bindDefaults scope passed defaults).Calls P := by
  induction defaults with
  | nil => trivial
  | cons x rest ih =>
    refine Calls.bind (fun _ => trivial) fun r => ?_
    dsimp only
    split
    · exact ih
    · exact fun _ _ => ih

theorem bindNamed_calls (scope : RecordId) (location : Location) (args : List (String × Value)) :
    (bindNamed scope location args).Calls P := by
  induction args with
  | nil => trivial
  | cons x rest ih =>
    refine Calls.bind (fun _ => trivial) fun r => ?_
    split
    · trivial
    · exact Calls.bind (fun _ _ => trivial) fun _ => ih

/-- A call of a function only evaluates its body. -/
theorem apply_calls (f : Function) (args : List Value) (named : List (String × Value))
    (path : String) (location : Location) :
    (f.apply args named path location).Calls fun c =>
      ∃ e scope path, c = .perform (.evaluate e scope path) := by
  refine Calls.bind ?_ fun scope => ⟨⟨_, _, _, rfl⟩, fun _ => trivial⟩
  rw [bindArguments]
  split
  · refine Calls.bind (fun _ => trivial) fun scope => ?_
    refine Calls.bind (bindPositional_calls scope _) fun _ => ?_
    refine Calls.bind (bindDefaults_calls scope _ _) fun _ => ?_
    exact Calls.bind (bindNamed_calls scope location _) fun _ => trivial
  · trivial

end Function

end NetDesc
