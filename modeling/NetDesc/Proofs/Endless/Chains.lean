import Mathlib.Logic.Relation
import NetDesc.Proofs.Endless.Involves
import NetDesc.Session

namespace NetDesc

open Relation (ReflTransGen)

namespace Evaluator

variable {ev : Evaluator} {m m' : Demand}

section Kinds

/-- The nesting grows with every expression that is evaluated. -/
theorem Involves.depth_le (h : ev.Involves m m') : m.depth ≤ m'.depth := by
  obtain ⟨depth, c, s⟩ := m
  obtain ⟨depth', c', t⟩ := m'
  obtain ⟨fuel, h⟩ := h
  cases h with
  | evaluate hdepth h => exact Nat.le_succ depth
  | element h => exact Nat.le_refl depth
  | force hpending => exact Nat.le_refl depth
  | render h => exact Nat.le_refl depth
  | tie h => exact Nat.le_refl depth

theorem Involves.of_evaluate {e : Expr} {scope : RecordId} {path : String}
    (h : ev.Involves m m') (hm : m.call = .perform (.evaluate e scope path)) :
    m.depth < ev.maxDepth ∧ m'.depth = m.depth + 1 := by
  obtain ⟨depth, c, s⟩ := m
  obtain ⟨depth', c', t⟩ := m'
  obtain ⟨fuel, h⟩ := h
  cases hm
  cases h with
  | evaluate hdepth h => exact ⟨hdepth, rfl⟩

theorem Involves.of_element {f : Function} {index : Value} {path : String} {location : Location}
    (h : ev.Involves m m') (hm : m.call = .perform (.element f index path location)) :
    ∃ e scope path, m'.call = .perform (.evaluate e scope path) := by
  obtain ⟨depth, c, s⟩ := m
  obtain ⟨depth', c', t⟩ := m'
  obtain ⟨fuel, h⟩ := h
  cases hm
  cases h with
  | element h => exact (f.apply_calls [index] [] path location).reaches h

theorem Involves.of_force {cell : CellId} (h : ev.Involves m m') (hm : m.call = .force cell) :
    ∃ task, m'.call = .perform task := by
  obtain ⟨depth, c, s⟩ := m
  obtain ⟨depth', c', t⟩ := m'
  obtain ⟨fuel, h⟩ := h
  cases hm
  cases h with
  | force hpending => exact ⟨_, rfl⟩

theorem Involves.of_render {spec : FormatSpec} {v : Value} (h : ev.Involves m m')
    (hm : m.call = .render spec v) : Render.StepCall m'.call := by
  obtain ⟨depth, c, s⟩ := m
  obtain ⟨depth', c', t⟩ := m'
  obtain ⟨fuel, h⟩ := h
  cases hm
  cases h with
  | render h => exact (Render.value_calls spec v).reaches h

theorem Involves.of_tie {work visited : List Object} (h : ev.Involves m m')
    (hm : m.call = .tie work visited) : Network.StepCall work visited m'.call := by
  obtain ⟨depth, c, s⟩ := m
  obtain ⟨depth', c', t⟩ := m'
  obtain ⟨fuel, h⟩ := h
  cases hm
  cases h with
  | tie h => exact (Network.tieStep_calls work visited).reaches h

end Kinds

/-- Infinitely many calls, each carried out by the one before. A call that never ends is the
    first of such a chain. -/
def IsChain (ev : Evaluator) (chain : Nat → Demand) : Prop :=
  ∀ i, ev.Involves (chain i) (chain (i + 1))

/-- Infinitely many steps of tying objects together, in which ever more objects are visited. -/
structure EndlessWalk (ev : Evaluator) (chain : Nat → Demand) : Prop where
  isChain : ev.IsChain chain
  tie : ∀ i, ∃ work visited, (chain i).call = .tie work visited
  visits : ∃ visited, ∀ n, ∃ i work new, (chain i).call = .tie work (visited ++ new) ∧
    new.Nodup ∧ (∀ o ∈ new, o ∉ visited) ∧ new.length = n

/-- Values are formatted inside of values without end. -/
structure EndlessText (ev : Evaluator) (chain : Nat → Demand) : Prop where
  isChain : ev.IsChain chain
  render : ∀ i, ∃ spec v, (chain i).call = .render spec v

namespace IsChain

variable {chain : Nat → Demand} (h : ev.IsChain chain)

include h

/-- No call of a chain ever ends. -/
theorem endless (i : Nat) : ev.Endless (chain i) := by
  intro fuel
  induction fuel generalizing i with
  | zero => exact carryOut_zero ev _ _ _
  | succ fuel ih => exact (h i).exhausted (ih (i + 1))

theorem reflTransGen (i : Nat) : ReflTransGen ev.Involves (chain 0) (chain i) := by
  induction i with
  | zero => exact .refl
  | succ i ih => exact ih.tail (h i)

/-- A chain that keeps tying objects together visits ever more of them: as long as objects are
    left out, fewer are left to be visited. -/
theorem endlessWalk (htie : ∀ i, ∃ work visited, (chain i).call = .tie work visited) :
    ev.EndlessWalk chain := by
  refine ⟨h, htie, ?_⟩
  choose work visited hcall using htie
  have hnext (i : Nat) : ∃ j, ∃ o ∉ visited i, visited j = visited i ++ [o] := by
    generalize hleft : work i = left
    induction left generalizing i with
    | nil =>
      have hstep := (h i).of_tie (hcall i)
      rw [hleft, hcall (i + 1)] at hstep
      cases hstep
    | cons o rest ih =>
      have hstep := (h i).of_tie (hcall i)
      rw [hleft, hcall (i + 1)] at hstep
      generalize hw : work (i + 1) = w at hstep
      generalize hv : visited (i + 1) = v at hstep
      cases hstep with
      | skip ho =>
        obtain ⟨j, o', ho', hj⟩ := ih (i + 1) hw
        rw [hv] at ho' hj
        exact ⟨j, o', ho', hj⟩
      | visit ho => exact ⟨i + 1, o, ho, hv⟩
  refine ⟨visited 0, fun n => ?_⟩
  suffices hnew : ∃ i new, visited i = visited 0 ++ new ∧ new.Nodup ∧ (∀ o ∈ new, o ∉ visited 0) ∧
      new.length = n by
    obtain ⟨i, new, hi, hnew⟩ := hnew
    exact ⟨i, work i, new, hi ▸ hcall i, hnew⟩
  induction n with
  | zero => exact ⟨0, [], by simp⟩
  | succ n ih =>
    obtain ⟨i, new, hi, hnodup, hdisjoint, hlength⟩ := ih
    obtain ⟨j, o, ho, hj⟩ := hnext i
    rw [hi, List.mem_append, not_or] at ho
    refine ⟨j, new ++ [o], ?_, ?_, ?_, ?_⟩
    · rw [hj, hi, List.append_assoc]
    · exact List.nodup_append.2 ⟨hnodup, by simp, by
        rintro a ha b hb rfl
        exact ho.2 (List.mem_singleton.1 hb ▸ ha)⟩
    · intro a ha
      rcases List.mem_append.1 ha with ha | ha
      · exact hdisjoint a ha
      · rw [List.mem_singleton.1 ha]
        exact ho.1
    · rw [List.length_append, hlength, List.length_singleton]

/-- A chain without any evaluation of an expression goes on in one of two ways. From where the
    limit on nesting is reached no expression is evaluated any more, so every chain comes to
    this. -/
theorem endlessWalk_or_endlessText
    (hnone : ∀ i e scope path, (chain i).call ≠ .perform (.evaluate e scope path)) :
    ev.EndlessWalk chain ∨ ev.EndlessText chain := by
  have hperform (i : Nat) (task : Task) : (chain i).call ≠ .perform task := by
    intro hi
    cases task with
    | evaluate e scope path => exact hnone i e scope path hi
    | element f index path location =>
      obtain ⟨e, scope, path, hi'⟩ := (h i).of_element hi
      exact hnone (i + 1) e scope path hi'
    | constant v =>
      have hgiven := h.endless i 1
      rw [hi] at hgiven
      cases hgiven
  have hforce (i : Nat) (cell : CellId) : (chain i).call ≠ .force cell := fun hi =>
    let ⟨task, hi'⟩ := (h i).of_force hi
    hperform (i + 1) task hi'
  cases hfirst : (chain 0).call with
  | perform task => exact absurd hfirst (hperform 0 task)
  | force cell => exact absurd hfirst (hforce 0 cell)
  | tie work visited =>
    refine .inl (h.endlessWalk fun i => ?_)
    induction i with
    | zero => exact ⟨work, visited, hfirst⟩
    | succ i ih =>
      obtain ⟨work, visited, hi⟩ := ih
      have hstep := (h i).of_tie hi
      generalize hnext : (chain (i + 1)).call = c at hstep
      cases hstep with
      | force cell => exact absurd hnext (hforce (i + 1) cell)
      | skip ho => exact ⟨_, _, rfl⟩
      | visit ho => exact ⟨_, _, rfl⟩
  | render spec v =>
    refine .inr ⟨h, fun i => ?_⟩
    induction i with
    | zero => exact ⟨spec, v, hfirst⟩
    | succ i ih =>
      obtain ⟨spec, v, hi⟩ := ih
      have hstep := (h i).of_render hi
      generalize hnext : (chain (i + 1)).call = c at hstep
      cases hstep with
      | force cell => exact absurd hnext (hforce (i + 1) cell)
      | render spec v => exact ⟨spec, v, rfl⟩

end IsChain

/-- A call that takes one that never ends does not end either. -/
theorem Endless.of_reflTransGen (h : ReflTransGen ev.Involves m m') (hm' : ev.Endless m') :
    ev.Endless m := by
  induction h using ReflTransGen.head_induction_on with
  | refl => exact hm'
  | head hstep _ ih =>
    intro fuel
    cases fuel with
    | zero => exact carryOut_zero ev _ _ _
    | succ fuel => exact hstep.exhausted (ih fuel)

/-- A call that never ends is the first of a chain. -/
theorem Endless.exists_chain (h : ev.Endless m) : ∃ chain, chain 0 = m ∧ ev.IsChain chain := by
  choose next hinvolves hendless using fun m : { m // ev.Endless m } => m.2.exists_involved
  let chain : Nat → { m // ev.Endless m } := Nat.rec ⟨m, h⟩ fun _ m => ⟨next m, hendless m⟩
  exact ⟨fun i => (chain i).1, rfl, fun i => hinvolves (chain i)⟩

/-- Sooner or later no expression is evaluated any more, since every one takes a level of
    nesting. -/
theorem Endless.exists_walk_or_text (h : ev.Endless m) :
    ∃ chain, ReflTransGen ev.Involves m (chain 0) ∧
      (ev.EndlessWalk chain ∨ ev.EndlessText chain) := by
  generalize hleft : ev.maxDepth - m.depth = left
  induction left using Nat.strongRecOn generalizing m with
  | ind left ih =>
    obtain ⟨chain, rfl, hchain⟩ := h.exists_chain
    by_cases hnone : ∀ i e scope path, (chain i).call ≠ .perform (.evaluate e scope path)
    · exact ⟨chain, .refl, hchain.endlessWalk_or_endlessText hnone⟩
    push Not at hnone
    obtain ⟨i, e, scope, path, hi⟩ := hnone
    obtain ⟨hdepth, hnext⟩ := (hchain i).of_evaluate hi
    have hle : (chain 0).depth ≤ (chain i).depth := by
      clear hi hdepth hnext
      induction i with
      | zero => exact Nat.le_refl _
      | succ i ihi => exact Nat.le_trans ihi (hchain i).depth_le
    obtain ⟨rest, hrest, hkind⟩ := ih (ev.maxDepth - (chain (i + 1)).depth) (by omega)
      (hchain.endless (i + 1)) rfl
    exact ⟨rest, (hchain.reflTransGen (i + 1)).trans hrest, hkind⟩

/-- The run of a program from outside of any expression carries out the call, or one that takes
    it. -/
def Takes (ev : Evaluator) {α : Type} (p : Program α) (s : Store) (m : Demand) : Prop :=
  ∃ (fuel : Nat) (c : Call) (next : c.Reply → Program α) (t : Store),
    p.Reaches (ev.carryOut fuel 0) s (.call c next) t ∧ ReflTransGen ev.Involves ⟨0, c, t⟩ m

/-- A run comes to an end iff neither walks nor texts that it takes go on for ever. -/
theorem run_ends_iff (ev : Evaluator) {α : Type} (p : Program α) (s : Store) :
    (∃ fuel, ev.run fuel p s ≠ .exhausted) ↔
      ∀ chain, ev.Takes p s (chain 0) → ¬ev.EndlessWalk chain ∧ ¬ev.EndlessText chain := by
  constructor
  · rintro ⟨fuel, hends⟩ chain ⟨fuel', c, next, t, hreach, htakes⟩
    suffices hchain : ¬ev.IsChain chain from ⟨fun h => hchain h.isChain, fun h => hchain h.isChain⟩
    intro hchain
    have hendless := Endless.of_reflTransGen htakes (hchain.endless 0)
    exact hends ((ev.carryOut_monotone 0).run_exhausted hreach (hendless fuel))
  · intro hnone
    by_contra hgiven
    push Not at hgiven
    obtain ⟨fuel, c, next, t, hreach, hendless⟩ := (ev.carryOut_monotone 0).exists_call hgiven
    have hc : ev.Endless ⟨0, c, t⟩ := hendless
    obtain ⟨chain, htakes, hkind⟩ := hc.exists_walk_or_text
    have hchain := hnone chain ⟨fuel, c, next, t, hreach, htakes⟩
    exact hkind.elim hchain.1 hchain.2

/-- A whole tree is evaluated and one of its members fetched. -/
def wholeMember (ev : Evaluator) (root : Expr) (name : String) : Program Value := do
  Program.memberOf (← ev.wholeTree root) name root.location

theorem evaluateMember_eq_exhausted_iff {fuel : Nat} {root : Expr} {name : String} {s : Store} :
    ev.evaluateMember fuel root name s = .exhausted ↔
      ev.run fuel (ev.wholeMember root name) s = .exhausted := by
  rw [evaluateMember, run, wholeMember, Program.run_bind]
  change Outcome.bind ((ev.wholeTree root).run _ s) _ = _ ↔ _
  cases (ev.wholeTree root).run (ev.carryOut fuel 0) s with
  | value v t =>
    refine ⟨Outcome.through_eq_exhausted, fun h => ?_⟩
    exact congrArg (Outcome.through · root.location) h
  | error e t => exact .rfl
  | exhausted => exact .rfl

/-- With the standard types and any limits, evaluating a member comes to an end, with a value or an
    error, unless one of two things goes on for ever: tying together the objects of one network, of
    which ever more are visited, or formatting one value, of which ever more is inside. The limit of
    how deep expressions may be nested covers everything else. -/
theorem evaluateMember_ends_iff (maxDepth maxArrayLength : Nat) (rootPath : String) (root : Expr)
    (name : String) (s : Store) :
    let ev : Evaluator := { registry := .standard, maxDepth, maxArrayLength, rootPath }
    (∃ fuel, ev.evaluateMember fuel root name s ≠ .exhausted) ↔
      ∀ chain, ev.Takes (ev.wholeMember root name) s (chain 0) →
        ¬ev.EndlessWalk chain ∧ ¬ev.EndlessText chain := by
  intro ev
  rw [← run_ends_iff]
  exact exists_congr fun fuel => not_congr evaluateMember_eq_exhausted_iff

end Evaluator

end NetDesc
