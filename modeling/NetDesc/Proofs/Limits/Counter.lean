import NetDesc.Proofs.Limits.CutOff
import NetDesc.Proofs.Matching.Run

namespace NetDesc

variable {α β : Type}

/-- A counter that is read and set by whoever runs, and shared by all evaluations with one
    evaluator. Nothing keeps it from going below zero. -/
structure Counter where
  value : Int := 0
  /-- What it has been set to, the latest first. -/
  past : List Int := []

namespace Counter

def set (k : Counter) (value : Int) : Counter where
  value := value
  past := value :: k.past

def enter (k : Counter) : Counter :=
  k.set (k.value + 1)

def leave (k : Counter) : Counter :=
  k.set (k.value - 1)

end Counter

/-- How a run ends, and the counter that it leaves. -/
structure Counted (α : Type) where
  outcome : Outcome α
  counter : Counter

namespace Counted

def bind (x : Counted α) (f : α → Store → Counter → Counted β) : Counted β :=
  match x.outcome with
  | .value result s => f result s x.counter
  | .error e s => ⟨.error e s, x.counter⟩
  | .exhausted => ⟨.exhausted, x.counter⟩

def map (f : Outcome α → Outcome β) (x : Counted α) : Counted β :=
  ⟨f x.outcome, x.counter⟩

/-- Whichever way a run has ended, the counter is set back. -/
def leave (x : Counted α) : Counted α :=
  ⟨x.outcome, x.counter.leave⟩

end Counted

/-- Runs a program with a counter, given how calls are carried out. -/
def Program.runCounting (carryOut : (c : Call) → Store → Counter → Counted c.Reply) :
    Program α → Store → Counter → Counted α
  | .done result, s, k => ⟨.value result s, k⟩
  | .raise e, s, k => ⟨.error e s, k⟩
  | .access a next, s, k =>
    (next (a.perform s).1).runCounting carryOut (a.perform s).2 k
  | .call c next, s, k =>
    (carryOut c s k).bind fun reply s k => (next reply).runCounting carryOut s k

namespace Evaluator

/-- Carries out a call. An evaluation adds one to the counter, unless that is over the limit, and
    takes one off again when it ends. How deep it is nested shows in the counter alone. -/
def carryOutCounting (ev : Evaluator) : (fuel : Nat) → (c : Call) → Store → Counter →
    Counted c.Reply
  | 0, _, _, k => ⟨.exhausted, k⟩
  | fuel + 1, .perform (.evaluate e scope path), s, k =>
    if k.value < ev.maxDepth then
      let p := ev.taskProgram (.evaluate e scope path)
      ((p.runCounting (ev.carryOutCounting fuel) s k.enter).map (·.through e.location)).leave
    else
      ⟨.error (ev.tooDeep e.location) s, k⟩
  | fuel + 1, .perform (.element initializer index path location), s, k =>
    let p := ev.taskProgram (.element initializer index path location)
    (p.runCounting (ev.carryOutCounting fuel) s k).map (·.through location)
  | _ + 1, .perform (.constant v), s, k => ⟨.value v s, k⟩
  | fuel + 1, .force cell, s, k =>
    let c := s.cell cell
    match c.progress with
    | .finished v => ⟨.value v s, k⟩
    | .running => ⟨.error c.cyclic s, k⟩
    | .pending =>
      let begun := s.setProgress cell .running
      (ev.carryOutCounting fuel (.perform c.task) begun k).map (settle cell)
  | fuel + 1, .render spec v, s, k =>
    (Render.value spec v).runCounting (ev.carryOutCounting fuel) s k
  | fuel + 1, .tie work visited, s, k =>
    (Network.tieStep work visited).runCounting (ev.carryOutCounting fuel) s k

def runCounting (ev : Evaluator) (fuel : Nat) (p : Program α) (s : Store) (k : Counter) :
    Counted α :=
  p.runCounting (ev.carryOutCounting fuel) s k

def evaluateTopLevelCounting (ev : Evaluator) (fuel : Nat) (root : Expr) (s : Store)
    (k : Counter) : Counted Value :=
  ev.runCounting fuel (ev.wholeTree root) s k

def evaluateMemberCounting (ev : Evaluator) (fuel : Nat) (root : Expr) (name : String) (s : Store)
    (k : Counter) : Counted Value :=
  (ev.evaluateTopLevelCounting fuel root s k).bind fun v s k =>
    (ev.runCounting fuel (Program.memberOf v name root.location) s k).map (·.through root.location)

end Evaluator

/-- The run has ended as `o`. It has left the counter at what it was, and never set it below zero or
    above the limit. -/
structure Counted.Balanced (limit : Nat) (k : Counter) (o : Outcome α) (x : Counted α) : Prop where
  outcome : x.outcome = o
  value : x.counter.value = k.value
  within : ∃ since, x.counter.past = since ++ k.past ∧ ∀ d ∈ since, 0 ≤ d ∧ d ≤ limit

namespace Counted.Balanced

variable {limit : Nat} {k : Counter} {o : Outcome α} {x : Counted α}

theorem unchanged (limit : Nat) (k : Counter) (o : Outcome α) :
    Balanced limit k o ⟨o, k⟩ where
  outcome := rfl
  value := rfl
  within := ⟨[], rfl, by simp⟩

theorem map (h : x.Balanced limit k o) (f : Outcome α → Outcome β) :
    (x.map f).Balanced limit k (f o) :=
  { h with outcome := congrArg f h.outcome }

/-- What goes on from a counter that has been left as it was leaves it so too. -/
theorem bind (h : x.Balanced limit k o) {f : α → Store → Counter → Counted β}
    {g : α → Store → Outcome β}
    (hfg : ∀ result s k', k'.value = k.value → (f result s k').Balanced limit k' (g result s)) :
    (x.bind f).Balanced limit k (o.bind g) := by
  obtain ⟨houtcome, hvalue, since, hpast, hsince⟩ := h
  subst houtcome
  unfold Counted.bind
  cases x.outcome with
  | value result s =>
    obtain ⟨houtcome', hvalue', since', hpast', hsince'⟩ := hfg result s x.counter hvalue
    refine ⟨houtcome', hvalue'.trans hvalue, since' ++ since, ?_, ?_⟩
    · rw [hpast', hpast, List.append_assoc]
    · intro d hd
      rcases List.mem_append.1 hd with hd | hd
      · exact hsince' d hd
      · exact hsince d hd
  | error e s => exact ⟨rfl, hvalue, since, hpast, hsince⟩
  | exhausted => exact ⟨rfl, hvalue, since, hpast, hsince⟩

/-- What has been entered below the limit is left again. -/
theorem leave {depth : Nat} (hdepth : k.value = depth) (hlt : depth < limit)
    (h : x.Balanced limit k.enter o) : x.leave.Balanced limit k o := by
  obtain ⟨houtcome, hvalue, since, hpast, hsince⟩ := h
  have hback : x.counter.value - 1 = k.value := by
    rw [hvalue]
    exact Int.add_sub_cancel k.value 1
  have hentered : k.enter.past = (k.value + 1) :: k.past := rfl
  refine ⟨houtcome, hback, (x.counter.value - 1) :: since ++ [k.value + 1], ?_, ?_⟩
  · change (x.counter.value - 1) :: x.counter.past = _
    rw [hpast, hentered]
    simp
  · intro d hd
    rw [hback, hdepth] at hd
    simp only [List.cons_append, List.mem_cons, List.mem_append, List.not_mem_nil, or_false] at hd
    rcases hd with hd | hd | hd
    · omega
    · exact hsince d hd
    · omega

end Counted.Balanced

/-- A run ends as it does without a counter, as long as calls at the same depth do. -/
theorem Program.runCounting_balanced {limit depth : Nat}
    {carryOut : (c : Call) → Store → Outcome c.Reply}
    {counting : (c : Call) → Store → Counter → Counted c.Reply}
    (hcalls : ∀ (c : Call) (s : Store) (k : Counter), k.value = depth →
      (counting c s k).Balanced limit k (carryOut c s))
    (p : Program α) (s : Store) {k : Counter} (hk : k.value = depth) :
    (p.runCounting counting s k).Balanced limit k (p.run carryOut s) := by
  induction p generalizing s k with
  | done result => exact .unchanged limit k _
  | raise e => exact .unchanged limit k _
  | access a next ih => exact ih _ _ hk
  | call c next ih =>
    rw [run_call_bind]
    exact (hcalls c s k hk).bind fun reply t k' hk' => ih reply t (hk'.trans hk)

namespace Evaluator

variable (ev : Evaluator)

section Equations

variable (fuel : Nat) {s : Store} {k : Counter}

theorem carryOutCounting_evaluate (s : Store) (h : k.value < ev.maxDepth) (e : Expr)
    (scope : RecordId) (path : String) :
    (ev.carryOutCounting (fuel + 1) (.perform (.evaluate e scope path)) s k : Counted Value) =
      (((ev.evaluateKind e.kind e.location scope path).runCounting (ev.carryOutCounting fuel) s
        k.enter).map (·.through e.location)).leave :=
  if_pos h

theorem carryOutCounting_evaluate_deep (s : Store) (h : ¬k.value < ev.maxDepth) (e : Expr)
    (scope : RecordId) (path : String) :
    (ev.carryOutCounting (fuel + 1) (.perform (.evaluate e scope path)) s k : Counted Value) =
      ⟨.error (ev.tooDeep e.location) s, k⟩ :=
  if_neg h

variable {c : CellId} (k)

theorem carryOutCounting_force_finished {v : Value} (h : (s.cell c).progress = .finished v) :
    (ev.carryOutCounting (fuel + 1) (.force c) s k : Counted Value) = ⟨.value v s, k⟩ := by
  simp only [carryOutCounting, h]

theorem carryOutCounting_force_running (h : (s.cell c).progress = .running) :
    (ev.carryOutCounting (fuel + 1) (.force c) s k : Counted Value) =
      ⟨.error (s.cell c).cyclic s, k⟩ := by
  simp only [carryOutCounting, h]

theorem carryOutCounting_force_pending (h : (s.cell c).progress = .pending) :
    (ev.carryOutCounting (fuel + 1) (.force c) s k : Counted Value) =
      (ev.carryOutCounting fuel (.perform (s.cell c).task) (s.setProgress c .running) k).map
        (settle c) := by
  simp only [carryOutCounting, h]
  rfl

end Equations

/-- The counter shows the depth that is passed down. -/
theorem carryOutCounting_balanced (fuel : Nat) {depth : Nat} (hlimit : depth ≤ ev.maxDepth)
    (c : Call) (s : Store) {k : Counter} (hk : k.value = depth) :
    (ev.carryOutCounting fuel c s k).Balanced ev.maxDepth k (ev.carryOut fuel depth c s) := by
  induction fuel generalizing depth c s k with
  | zero =>
    rw [carryOut_zero]
    exact .unchanged _ k _
  | succ fuel ih =>
    have hrun {α : Type} {depth : Nat} (hlimit : depth ≤ ev.maxDepth) (p : Program α) {k : Counter}
        (hk : k.value = depth) :
        (p.runCounting (ev.carryOutCounting fuel) s k).Balanced ev.maxDepth k
          (p.run (ev.carryOut fuel depth) s) :=
      p.runCounting_balanced (fun c s _ hk => ih hlimit c s hk) s hk
    cases c with
    | perform task =>
      cases task with
      | evaluate e scope path =>
        by_cases hdepth : depth < ev.maxDepth
        · have hvalue : k.value < ev.maxDepth := by omega
          have hentered : k.enter.value = (depth + 1 : Nat) := by
            simp [Counter.enter, Counter.set, hk]
          rw [carryOutCounting_evaluate ev fuel s hvalue, carryOut_evaluate ev fuel s hdepth]
          exact ((hrun hdepth _ hentered).map (·.through e.location)).leave hk hdepth
        · have hvalue : ¬k.value < ev.maxDepth := by omega
          rw [carryOutCounting_evaluate_deep ev fuel s hvalue,
            carryOut_evaluate_deep ev fuel s (Nat.le_of_not_lt hdepth)]
          exact .unchanged _ k _
      | element initializer index path location =>
        exact (hrun hlimit _ hk).map (·.through location)
      | constant v => exact .unchanged _ k _
    | force cell =>
      cases hprogress : (s.cell cell).progress with
      | finished v =>
        rw [carryOutCounting_force_finished ev fuel k hprogress,
          carryOut_force_finished ev fuel depth hprogress]
        exact .unchanged _ k _
      | running =>
        rw [carryOutCounting_force_running ev fuel k hprogress,
          carryOut_force_running ev fuel depth hprogress]
        exact .unchanged _ k _
      | pending =>
        rw [carryOutCounting_force_pending ev fuel k hprogress,
          carryOut_force_pending ev fuel depth hprogress]
        exact (ih hlimit _ _ hk).map _
    | render spec v => exact hrun hlimit _ hk
    | tie work visited => exact hrun hlimit _ hk

variable {k : Counter} (hk : k.value = 0)

include hk

/-- From outside of any expression the counter is zero. -/
theorem runCounting_balanced (fuel : Nat) (p : Program α) (s : Store) :
    (ev.runCounting fuel p s k).Balanced ev.maxDepth k (ev.run fuel p s) :=
  p.runCounting_balanced
    (fun c s _ hk => ev.carryOutCounting_balanced fuel ev.maxDepth.zero_le c s hk) s hk

theorem evaluateMemberCounting_balanced (fuel : Nat) (root : Expr) (name : String) (s : Store) :
    (ev.evaluateMemberCounting fuel root name s k).Balanced ev.maxDepth k
      (ev.evaluateMember fuel root name s) :=
  (ev.runCounting_balanced hk fuel (ev.wholeTree root) s).bind fun v t _ hk' =>
    (ev.runCounting_balanced (hk'.trans hk) fuel (Program.memberOf v name root.location) t).map
      (·.through root.location)

end Evaluator

/-- What an evaluator may be called for from outside. -/
inductive TopLevelCall where
  | tree (root : Expr)
  | member (root : Expr) (name : String)
  | action (root : Expr)

namespace TopLevelCall

def answer (ev : Evaluator) (fuel : Nat) (s : Store) : TopLevelCall → Outcome Value
  | tree root => ev.evaluateTopLevel fuel root s
  | member root name => ev.evaluateMember fuel root name s
  | action root => ev.runAction fuel root s

def answerCounting (ev : Evaluator) (fuel : Nat) (s : Store) (k : Counter) :
    TopLevelCall → Counted Value
  | tree root => ev.evaluateTopLevelCounting fuel root s k
  | member root name => ev.evaluateMemberCounting fuel root name s k
  | action root => ev.evaluateMemberCounting fuel root Evaluator.actionName s k

theorem answerCounting_balanced (c : TopLevelCall) (ev : Evaluator) (fuel : Nat) (s : Store)
    {k : Counter} (hk : k.value = 0) :
    (c.answerCounting ev fuel s k).Balanced ev.maxDepth k (c.answer ev fuel s) := by
  cases c with
  | tree root => exact ev.runCounting_balanced hk fuel (ev.wholeTree root) s
  | member root name => exact ev.evaluateMemberCounting_balanced hk fuel root name s
  | action root => exact ev.evaluateMemberCounting_balanced hk fuel root Evaluator.actionName s

end TopLevelCall

/-- The same trees, after some lines have been printed to the second store. -/
def Comparison.afterLines (before : Array String) : Comparison where
  expr := Eq
  ordered := True
  before := before
  expr_location := congrArg Expr.location
  expr_kind := by
    rintro e _ rfl
    exact .same (.refl (fun _ => rfl) (fun _ => rfl) e.kind)

namespace Evaluator

/-- The stores and counters that calls leave behind, with a value or with an error, one call after
    the other with the same evaluator. -/
inductive Used (ev : Evaluator) : Store → Counter → Prop
  | new : Used ev {} {}
  | call {s t : Store} {k : Counter} (h : Used ev s k) (c : TopLevelCall) (fuel : Nat)
      (ht : (c.answerCounting ev fuel s k).outcome.store? = some t) :
      Used ev t (c.answerCounting ev fuel s k).counter

/-- Between calls the counter is zero, and it has always been within its limits. -/
theorem Used.counter_within {ev : Evaluator} {s : Store} {k : Counter} (h : ev.Used s k) :
    k.value = 0 ∧ ∀ d ∈ k.past, 0 ≤ d ∧ d ≤ ev.maxDepth := by
  induction h with
  | new => simp
  | @call s t k _ c fuel _ ih =>
    obtain ⟨hk, hpast⟩ := ih
    obtain ⟨-, hvalue, since, hsince, hwithin⟩ := c.answerCounting_balanced ev fuel s hk
    refine ⟨hvalue.trans hk, fun d hd => ?_⟩
    rw [hsince] at hd
    rcases List.mem_append.1 hd with hd | hd
    · exact hwithin d hd
    · exact hpast d hd

/-- A used evaluator is as good as a new one. Its counter has never left its limits, and is back
    after each further call, which ends as one without a counter does. A member of a tree is the
    same as that on a new evaluator, up to the places it is in, or there is the same error, and the
    same lines are printed after those that were there. -/
theorem used_as_new {ev : Evaluator} (hev : ev.registry = .standard) {s : Store} {k : Counter}
    (h : ev.Used s k) :
    (∀ d ∈ k.past, 0 ≤ d ∧ d ≤ ev.maxDepth) ∧
      (∀ (c : TopLevelCall) (fuel : Nat),
        (c.answerCounting ev fuel s k).Balanced ev.maxDepth k (c.answer ev fuel s)) ∧
      ∀ (root : Expr) (name : String) (fuel : Nat),
        (ev.evaluateMemberCounting fuel root name {} {}).outcome.Corresponds
          (.afterLines s.printed) ⊥ (Value.Corresponds (.afterLines s.printed))
          (ev.evaluateMemberCounting fuel root name s k).outcome := by
  obtain ⟨hk, hpast⟩ := h.counter_within
  refine ⟨hpast, fun c fuel => c.answerCounting_balanced ev fuel s hk, fun root name fuel => ?_⟩
  have hregistry : ev.registry.Corresponds (.afterLines s.printed) :=
    hev ▸ Registry.standard_corresponds trivial
  rw [(ev.evaluateMemberCounting_balanced rfl fuel root name {}).outcome,
    (ev.evaluateMemberCounting_balanced hk fuel root name s).outcome]
  exact evaluateMember_corresponds hregistry rfl fuel name (by simp [Comparison.afterLines])

/-- Two levels are too few for `x`, and its failure is forgotten. -/
theorem used_as_new_relay :
    let ev := ({} : Evaluator).withLimits 2 0
    let failed := ev.evaluateMemberCounting 20 relayExpr "x" {} {}
    ∃ s, failed.outcome.store? = some s ∧ failed.outcome.error?.isSome ∧
      failed.counter.past = [0, 1, 2, 1, 0, 1] ∧
      ∀ (root : Expr) (name : String) (fuel : Nat),
        (ev.evaluateMemberCounting fuel root name {} {}).outcome.Corresponds
          (.afterLines s.printed) ⊥ (Value.Corresponds (.afterLines s.printed))
          (ev.evaluateMemberCounting fuel root name s failed.counter).outcome := by
  intro ev failed
  have hended : failed.outcome.store?.isSome := by decide +kernel
  obtain ⟨s, hs⟩ := Option.isSome_iff_exists.1 hended
  have hused : ev.Used s failed.counter := .call .new (.member relayExpr "x") 20 hs
  exact ⟨s, hs, by decide +kernel, by decide +kernel, (used_as_new rfl hused).2.2⟩

end Evaluator

end NetDesc
