import NetDesc.Proofs.Program.Calls
import NetDesc.Proofs.Run.Fuel

namespace NetDesc

namespace Program

variable {α : Type} {R : Nat → (c : Call) → Store → Outcome c.Reply} {x y : Program α}
  {s t : Store} {n m : Nat}

theorem Monotone.answered (hR : Monotone R) (hnm : n ≤ m) {c : Call} {reply : c.Reply}
    (h : R n c s = .value reply t) : R m c s = .value reply t := by
  rcases hR n m hnm c s with hle | hle
  · rw [h] at hle
    cases hle
  · rw [← hle, h]

theorem Monotone.reaches (hR : Monotone R) (hnm : n ≤ m) (h : Reaches (R n) x s y t) :
    Reaches (R m) x s y t := by
  induction h with
  | start x s => exact .start x s
  | access _ ih => exact .access ih
  | reply hreply _ ih => exact .reply (hR.answered hnm hreply) ih

/-- If a program is given up however much fuel there is, one of its calls is. -/
theorem Monotone.exists_call (hR : Monotone R) (h : ∀ n, x.run (R n) s = .exhausted) :
    ∃ (n : Nat) (c : Call) (next : c.Reply → Program α) (t : Store),
      Reaches (R n) x s (.call c next) t ∧ ∀ m, R m c t = .exhausted := by
  induction x generalizing s with
  | done result => exact absurd (h 0) (by rintro ⟨⟩)
  | raise e => exact absurd (h 0) (by rintro ⟨⟩)
  | access a next ih =>
    obtain ⟨n, c, next', t, hreach, hc⟩ := ih _ h
    exact ⟨n, c, next', t, .access hreach, hc⟩
  | call c next ih =>
    by_cases hc : ∀ m, R m c s = .exhausted
    · exact ⟨0, c, next, s, .start _ _, hc⟩
    obtain ⟨n, hn⟩ := not_forall.1 hc
    cases hreply : R n c s with
    | value reply u =>
      have hanswered (m : Nat) := hR.answered (Nat.le_add_right n m) hreply
      -- With more fuel than the call takes, the rest is given up, so it is with less.
      have hrest (m : Nat) : (next reply).run (R m) u = .exhausted := by
        have hlong : (next reply).run (R (n + m)) u = .exhausted := by
          simpa only [run, hanswered m] using h (n + m)
        have hle := run_le (hR m (n + m) (Nat.le_add_left m n)) (next reply) u
        exact hle.elim id fun heq => heq.trans hlong
      obtain ⟨m, d, next', t, hreach, hd⟩ := ih reply hrest
      exact ⟨n + m, d, next', t,
        .reply (hanswered m) (hR.reaches (Nat.le_add_left m n) hreach), hd⟩
    | error e u =>
      have hrun := h n
      simp only [run, hreply] at hrun
      cases hrun
    | exhausted => exact absurd hreply hn

/-- With whatever fuel a call is given up, so is a program that makes it, be it with other fuel. -/
theorem Monotone.run_exhausted (hR : Monotone R) {c : Call} {next : c.Reply → Program α}
    (h : Reaches (R n) x s (.call c next) t) (hc : R m c t = .exhausted) :
    x.run (R m) s = .exhausted := by
  rcases Nat.le_total n m with hnm | hmn
  · rw [(hR.reaches hnm h).run_eq, run, hc]
  generalize hy : Program.call c next = y at h
  induction h with
  | start x s =>
    subst hy
    rw [run, hc]
  | access _ ih => exact ih hc hy
  | @reply d next' s t u reply y hreply _ ih =>
    rw [run]
    rcases hR m n hmn d s with h | h <;> rw [h]
    rw [hreply]
    exact ih hc hy

end Program

/-- A call that is carried out, apart from the fuel for it. -/
structure Demand where
  depth : Nat
  call : Call
  store : Store

/-- The moment in which there is this much fuel for the call. -/
def Demand.fueled (m : Demand) (fuel : Nat) : Moment :=
  ⟨fuel, m.depth, m.call, m.store⟩

/-- Tying the input of a node only computes it. -/
theorem Node.finalize_calls {P : Call → Prop} (hforce : ∀ cell, P (.force cell)) (id : NodeId) :
    (Node.finalize id).Calls P := by
  refine .bind (x := Program.readNode id) (fun _ => trivial) fun n => ?_
  cases n.pendingInput with
  | none => trivial
  | some cell =>
    refine ⟨hforce cell, fun v => .bind (x := Program.ofExcept v.asNode) ?_ fun _ _ => trivial⟩
    cases v.asNode <;> trivial

namespace Network

/-- What a step of tying objects together may call for. -/
inductive StepCall : (work visited : List Object) → Call → Prop
  /-- The input that a delay waits for is computed. -/
  | force {work visited : List Object} (cell : CellId) : StepCall work visited (.force cell)
  /-- An object that was visited before is left out. -/
  | skip {o : Object} {work visited : List Object} (ho : o ∈ visited) :
      StepCall (o :: work) visited (.tie work visited)
  | visit {o : Object} {work visited children : List Object} (ho : o ∉ visited) :
      StepCall (o :: work) visited (.tie (work ++ children) (visited ++ [o]))

theorem tieStep_calls (work visited : List Object) :
    (tieStep work visited).Calls (StepCall work visited) := by
  cases work with
  | nil => trivial
  | cons o work =>
    rw [tieStep]
    split
    next hvisited => exact ⟨.skip (by simpa using hvisited), fun _ => trivial⟩
    next hnew =>
      have hnew : o ∉ visited := by simpa using hnew
      cases o with
      | node id =>
        exact .bind (Node.finalize_calls .force id) fun _ => fun _ =>
          ⟨.visit hnew, fun _ => trivial⟩
      | network id => exact fun _ => ⟨.visit hnew, fun _ => trivial⟩
      | action id => exact fun _ => ⟨.visit hnew, fun _ => trivial⟩

end Network

namespace Render

/-- What a value consists of is computed and formatted. -/
inductive StepCall : Call → Prop
  | force (cell : CellId) : StepCall (.force cell)
  | render (spec : FormatSpec) (v : Value) : StepCall (.render spec v)

theorem members_calls (spec : FormatSpec) (found : Array String) (ms : List (String × Member)) :
    (members spec found ms).Calls StepCall := by
  induction ms generalizing found with
  | nil => trivial
  | cons p rest ih =>
    refine .bind ⟨.force _, fun _ => trivial⟩ fun v => ?_
    exact .bind ⟨.render spec v, fun _ => trivial⟩ fun text => ih _

theorem elements_calls (spec : FormatSpec) (found : Array String) (vs : List Value) :
    (elements spec found vs).Calls StepCall := by
  induction vs generalizing found with
  | nil => trivial
  | cons v rest ih => exact .bind ⟨.render spec v, fun _ => trivial⟩ fun text => ih _

theorem forceAll_calls (cells : List CellId) : (Program.forceAll cells).Calls StepCall := by
  induction cells with
  | nil => trivial
  | cons cell rest ih =>
    rw [Program.forceAll, List.mapM_cons]
    exact .bind ⟨.force cell, fun _ => trivial⟩ fun v => .bind ih fun vs => trivial

theorem value_calls (spec : FormatSpec) (v : Value) : (value spec v).Calls StepCall := by
  rw [value]
  split
  · trivial
  · trivial
  · trivial
  · exact .bind (fun _ => trivial) fun r => .bind (members_calls spec _ _) fun texts => trivial
  · exact .bind (forceAll_calls _) fun vs => .bind (elements_calls spec _ _) fun texts => trivial
  · trivial
  · exact fun _ => trivial

end Render

namespace Evaluator

variable {ev : Evaluator} {m m' : Demand}

/-- Carrying out the first call with enough fuel, the evaluator carries out the second one
    itself. -/
def Involves (ev : Evaluator) (m m' : Demand) : Prop :=
  ∃ fuel, ev.LeadsTo (m.fueled (fuel + 1)) (m'.fueled fuel)

/-- However much fuel there is, the call is given up. -/
def Endless (ev : Evaluator) (m : Demand) : Prop :=
  ∀ fuel, ev.carryOut fuel m.depth m.call m.store = .exhausted

/-- What one call carries out, it cannot do without: it takes more fuel, so it is given up if the
    other one is. -/
theorem Involves.exhausted (h : ev.Involves m m') {fuel : Nat}
    (hm' : ev.carryOut fuel m'.depth m'.call m'.store = .exhausted) :
    ev.carryOut (fuel + 1) m.depth m.call m.store = .exhausted := by
  obtain ⟨depth, c, s⟩ := m
  obtain ⟨depth', c', t⟩ := m'
  obtain ⟨fuel', h⟩ := h
  cases h with
  | evaluate hdepth h =>
    rw [carryOut_evaluate ev fuel s hdepth]
    have hrun := (ev.carryOut_monotone _).run_exhausted h hm'
    exact congrArg (Outcome.through · _) hrun
  | element h =>
    rw [carryOut_element]
    have hrun := (ev.carryOut_monotone _).run_exhausted h hm'
    exact congrArg (Outcome.through · _) hrun
  | force hpending =>
    rw [carryOut_force_pending ev fuel depth hpending]
    exact congrArg (settle _) hm'
  | render h => exact (ev.carryOut_monotone _).run_exhausted h hm'
  | tie h => exact (ev.carryOut_monotone _).run_exhausted h hm'

/-- A call that never ends carries out another one. -/
theorem Endless.exists_involved (h : ev.Endless m) : ∃ m', ev.Involves m m' ∧ ev.Endless m' := by
  obtain ⟨depth, c, s⟩ := m
  cases c with
  | perform task =>
    cases task with
    | evaluate e scope path =>
      rcases Nat.lt_or_ge depth ev.maxDepth with hdepth | hdepth
      · obtain ⟨fuel, c, next, t, hreach, hc⟩ := (ev.carryOut_monotone (depth + 1)).exists_call
          fun fuel => Outcome.through_eq_exhausted
            ((ev.carryOut_evaluate fuel s hdepth e scope path).symm.trans (h (fuel + 1)))
        exact ⟨⟨depth + 1, c, t⟩, ⟨fuel, .evaluate hdepth hreach⟩, hc⟩
      · have hdeep := (ev.carryOut_evaluate_deep 0 s hdepth e scope path).symm.trans (h 1)
        cases hdeep
    | element initializer index path location =>
      obtain ⟨fuel, c, next, t, hreach, hc⟩ := (ev.carryOut_monotone depth).exists_call
        fun fuel => Outcome.through_eq_exhausted
          ((ev.carryOut_element fuel depth s initializer index path location).symm.trans
            (h (fuel + 1)))
      exact ⟨⟨depth, c, t⟩, ⟨fuel, .element hreach⟩, hc⟩
    | constant v => cases h 1
  | force cell =>
    cases hprogress : (s.cell cell).progress with
    | finished v =>
      have hgiven := (ev.carryOut_force_finished 0 depth hprogress).symm.trans (h 1)
      cases hgiven
    | running =>
      have hgiven := (ev.carryOut_force_running 0 depth hprogress).symm.trans (h 1)
      cases hgiven
    | pending =>
      refine ⟨⟨depth, .perform (s.cell cell).task, s.setProgress cell .running⟩,
        ⟨0, .force hprogress⟩, fun fuel => ?_⟩
      exact settle_eq_exhausted
        ((ev.carryOut_force_pending fuel depth hprogress).symm.trans (h (fuel + 1)))
  | render spec v =>
    obtain ⟨fuel, c, next, t, hreach, hc⟩ := (ev.carryOut_monotone depth).exists_call
      fun fuel => h (fuel + 1)
    exact ⟨⟨depth, c, t⟩, ⟨fuel, .render hreach⟩, hc⟩
  | tie work visited =>
    obtain ⟨fuel, c, next, t, hreach, hc⟩ := (ev.carryOut_monotone depth).exists_call
      fun fuel => h (fuel + 1)
    exact ⟨⟨depth, c, t⟩, ⟨fuel, .tie hreach⟩, hc⟩

end Evaluator

end NetDesc
