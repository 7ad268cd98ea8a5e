import NetDesc.Proofs.Endless.Chains
import NetDesc.Proofs.Recurrence.Build

namespace NetDesc

namespace Program

variable {α β : Type} {ev : Evaluator} {depth : Nat} {s : Store}

/-- However much fuel there is, the run is given up. As for runs that end, there is a rule for
    each call, and two for programs that are put together. -/
def Endless (ev : Evaluator) (depth : Nat) (p : Program α) (s : Store) : Prop :=
  ∀ fuel, p.run (ev.carryOut fuel depth) s = .exhausted

/-- A run that ends with a result does so, unless there is too little fuel. -/
theorem Ends.run_eq {p : Program α} {P : Store → α → Prop} (hp : p.Ends ev depth s P False)
    (fuel : Nat) : p.run (ev.carryOut fuel depth) s = .exhausted ∨
      ∃ a t, p.run (ev.carryOut fuel depth) s = .value a t ∧ P t a := by
  obtain ⟨o, ⟨n, hn⟩, hconcludes⟩ := hp
  have hle := run_le (ev.carryOut_monotone depth fuel (n + fuel) (Nat.le_add_left fuel n)) p s
  refine hle.imp_right fun heq => ?_
  replace heq := heq.trans (hn (n + fuel) (Nat.le_add_right n fuel))
  cases o with
  | value a t => exact ⟨a, t, heq, hconcludes⟩
  | error e t => exact hconcludes.2.elim
  | exhausted => exact hconcludes.elim

theorem Ends.exists_value {p : Program α} {P : Store → α → Prop} (hp : p.Ends ev depth s P False) :
    ∃ n a t, (∀ k ≥ n, p.run (ev.carryOut k depth) s = .value a t) ∧ P t a := by
  obtain ⟨o, ⟨n, hn⟩, hconcludes⟩ := hp
  cases o with
  | value a t => exact ⟨n, a, t, hn, hconcludes⟩
  | error e t => exact hconcludes.2.elim
  | exhausted => exact hconcludes.elim

theorem Ends.of_run_value {p : Program α} {P : Store → α → Prop} (hp : p.Ends ev depth s P False)
    {fuel : Nat} {a : α} {t : Store} (ha : p.run (ev.carryOut fuel depth) s = .value a t) :
    P t a := by
  rcases hp.run_eq fuel with hrun | ⟨b, u, hrun, hb⟩
  · cases hrun.symm.trans ha
  · cases hrun.symm.trans ha
    exact hb

/-- A run is given up if what is left after its first part is, whatever that gives. -/
theorem Ends.run_bind {p : Program α} {P : Store → α → Prop} {f : α → Program β}
    (hp : p.Ends ev depth s P False) {fuel : Nat}
    (hf : ∀ t a, P t a → (f a).run (ev.carryOut fuel depth) t = .exhausted) :
    (p >>= f).run (ev.carryOut fuel depth) s = .exhausted := by
  rw [Program.run_bind]
  rcases hp.run_eq fuel with hrun | ⟨a, t, hrun, ha⟩ <;> rw [hrun]
  · rfl
  · exact hf t a ha

namespace Endless

theorem bind {p : Program α} (hp : p.Endless ev depth s) (f : α → Program β) :
    (p >>= f).Endless ev depth s := by
  intro fuel
  rw [run_bind, hp fuel]
  rfl

theorem after {p : Program α} {P : Store → α → Prop} {f : α → Program β}
    (hp : p.Ends ev depth s P False) (hf : ∀ t a, P t a → (f a).Endless ev depth t) :
    (p >>= f).Endless ev depth s :=
  fun fuel => hp.run_bind fun t a ha => hf t a ha fuel

theorem check {x : Except EvalError α} {f : α → Program β} {a : α} (hx : x = .ok a)
    (hf : (f a).Endless ev depth s) : (Program.ofExcept x >>= f).Endless ev depth s := by
  subst hx
  exact hf

theorem call {c : Call} (h : ev.Endless ⟨depth, c, s⟩) :
    (Program.call c .done).Endless ev depth s :=
  fun fuel => (run_call _ c s).trans (h fuel)

theorem evaluate {e : Expr} {scope : RecordId} {path : String} (hdepth : depth < ev.maxDepth)
    (h : (ev.evaluateKind e.kind e.location scope path).Endless ev (depth + 1) s) :
    (Program.evaluate e scope path).Endless ev depth s := by
  refine call fun fuel => ?_
  cases fuel with
  | zero => exact ev.carryOut_zero depth s _
  | succ fuel =>
    refine (ev.carryOut_evaluate fuel s hdepth e scope path).trans ?_
    rw [h fuel]
    rfl

theorem force_pending {c : CellId} (hc : (s.cell c).progress = .pending)
    (h : (Program.perform (s.cell c).task).Endless ev depth (s.setProgress c .running)) :
    (Program.force c).Endless ev depth s := by
  refine call fun fuel => ?_
  cases fuel with
  | zero => exact ev.carryOut_zero depth s _
  | succ fuel =>
    refine (ev.carryOut_force_pending fuel depth hc).trans ?_
    exact congrArg (Evaluator.settle c) ((run_call _ _ _).symm.trans (h fuel))

end Endless

end Program

/-- A literal with one member is laid out as a record with that member. -/
theorem Store.Lays.members_eq {outer r : RecordId} {path : String} {b : Binding} {s t : Store}
    {m : Member} (h : s.Lays outer path [b] r t) (hm : t.Holds r path s.cells.size b m) :
    (t.record r).members.toList = [(b.name.name, m)] := by
  have hnames : (t.record r).members.toList.map (·.1) = [b.name.name] := h.names
  obtain ⟨⟨name, m'⟩, hmembers, rfl⟩ := List.map_eq_singleton_iff.1 hnames
  have hnodup : (t.record r).names.Nodup := by
    rw [Record.names, hnames]
    exact List.nodup_singleton _
  have hfound := Record.find?_of_mem hnodup (hmembers ▸ List.mem_singleton_self _)
  rw [hmembers, Option.some.inj (hfound.symm.trans hm.found)]

namespace Evaluator

variable {ev : Evaluator}

/-- A member of a tree never ends if its value, evaluated in the tree's record, does not. -/
theorem evaluateMember_endless {root : Expr} {members : List Binding} {b : Binding} {s : Store}
    (hroot : root.kind = .record members) (hdistinct : (members.map (·.name.name)).Nodup)
    (hdepth : 0 < ev.maxDepth) (hb : b ∈ members)
    (h : ∀ {outer home : RecordId} {path : String} {m : Member} {t u : Store},
      t.Lays outer path members home u → u.Holds home path t.cells.size b m →
        (Program.evaluate b.value home (joinPath path b.name.name)).Endless ev 0
          (u.setProgress m.cell .running)) (fuel : Nat) :
    ev.evaluateMember fuel root b.name.name s = .exhausted := by
  rw [evaluateMember_eq_exhausted_iff]
  have htree : (ev.wholeTree root).Ends ev 0 s (fun u v =>
      ∃ (t : Store) (outer home : RecordId), v.payload = .record home ∧
        t.Lays outer ev.rootPath members home u) False := by
    refine .after ((evaluate_record_ends hroot hdistinct hdepth _ _ _).imp ?_ id)
    rintro u v ⟨home, hv, hlays⟩
    exact ⟨_, _, home, hv, hlays⟩
  refine Program.Endless.after htree ?_ fuel
  rintro u v ⟨t, outer, home, hv, hlays⟩
  obtain ⟨m, hm⟩ := hlays.holds b hb
  have hfound : u.find? home b.name.name = some m := by
    rw [Store.find?, List.findSome?_cons, hm.found]
  have hforce : (Program.force m.cell).Endless ev 0 u := by
    refine .force_pending hm.pending ?_
    rw [hm.task]
    exact h hlays hm
  intro fuel
  have hmember : Program.memberOf v b.name.name root.location =
      (Program.find home b.name.name >>= fun found => Program.forceFound (found.map (·.cell))
        (.unknownIdentifier b.name.name root.location)) := by
    simp only [Program.memberOf, Program.memberCell?, hv, bind_assoc, pure_bind]
  rw [hmember]
  change (Program.forceFound ((u.find? home b.name.name).map (·.cell)) _).run _ u = _
  rw [hfound]
  exact hforce fuel

end Evaluator

end NetDesc
