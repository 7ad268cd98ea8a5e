import NetDesc.Proofs.Sharing.ByName

namespace NetDesc

open Outcome (Eventually Tracks)

namespace EvalError

theorem isRaised_through {e : EvalError} {location : Location} :
    (e.through location).IsRaised ↔ e.IsRaised := by
  rw [IsRaised, IsRaised, through_cause]

end EvalError

namespace Evaluator

/-- A failure that no program raises, and that `n` levels of calls would not get beyond: a cycle,
    or a limit that is not reached sooner. By name it has no counterpart, for there the
    evaluation is given up. -/
def Stuck (ev : Evaluator) (n fuel depth : Nat) {α : Type} : Outcome α → Prop
  | .value _ _ => False
  | .error e _ =>
    match e.cause with
    | .cyclicEvaluation _ => True
    | .recursionLimit _ => depth + n ≤ ev.maxDepth
    | _ => False
  | .exhausted => n ≤ fuel

variable {ev : Evaluator} {old n fuel depth : Nat}

theorem Stuck.not_raised {α : Type} {e : EvalError} {s : Store}
    (h : ev.Stuck n fuel depth (.error e s : Outcome α)) : ¬ e.IsRaised := by
  intro he
  simp only [Stuck, EvalError.IsRaised] at h he
  cases hcause : e.cause <;> simp only [hcause] at h he

/-- Within wide enough limits every failure is one or the other. -/
theorem stuck_of_not_raised {α : Type} {e : EvalError} {s : Store} (he : ¬ e.IsRaised)
    (hdepth : depth + n ≤ ev.maxDepth) : ev.Stuck n fuel depth (.error e s : Outcome α) := by
  simp only [Stuck, EvalError.IsRaised] at he ⊢
  cases hcause : e.cause <;> simp only [hcause, not_true] at he ⊢
  exact hdepth

theorem Stuck.of_through {α : Type} {o : Outcome α} {location : Location}
    (h : ev.Stuck n fuel depth (o.through location)) : ev.Stuck n fuel depth o := by
  cases o with
  | value a s => exact h
  | error e s => simpa only [Outcome.through, Stuck, EvalError.through_cause] using h
  | exhausted => exact h

theorem Stuck.mono {m f d : Nat} {α : Type} {o : Outcome α} (h : ev.Stuck n fuel depth o)
    (hdepth : d + m ≤ depth + n) (hfuel : n ≤ fuel → m ≤ f) : ev.Stuck m f d o := by
  cases o with
  | value a s => exact h
  | error e s =>
    simp only [Stuck] at h ⊢
    split at h
    · trivial
    · exact Nat.le_trans hdepth h
    · exact h
  | exhausted => exact hfuel h

/-- One level further in there is one level less to go. -/
theorem Stuck.inside {α : Type} {o : Outcome α} {location : Location}
    (h : ev.Stuck (n + 1) (fuel + 1) depth (o.through location)) : ev.Stuck n fuel (depth + 1) o :=
  h.of_through.mono (Nat.le_of_eq (by omega)) Nat.le_of_succ_le_succ

theorem Stuck.of_settle {c : CellId} {o : Outcome Value}
    (h : ev.Stuck n fuel depth (settle c o)) : ev.Stuck n fuel depth o := by
  cases o with
  | value v s => exact h
  | error e s => exact h
  | exhausted => exact h

/-- Computing by name what is being computed is given up, now and later. -/
def Blocked (ev : Evaluator) (old n : Nat) (s : Store) : Prop :=
  ∀ z, old ≤ z → (s.cell z).progress = .running → ∀ (later t : Store) (W : Pairing) (a : CellId),
    s.Extends s.records.size later → later.Alike W t → W.From old → W.cell z a →
      (ev.carryOutFreely .byName n (.force a) t : Outcome Value) = .exhausted

theorem Blocked.mono {m : Nat} {s : Store} (h : ev.Blocked old n s) (hmn : m ≤ n) :
    ev.Blocked old m s := by
  intro z hold hz later t W a hlater hW hfrom hza
  have hle := ev.carryOutFreely_monotone .byName m n hmn (.force a) t
  rw [h z hold hz later t W a hlater hW hfrom hza] at hle
  exact hle.elim id id

theorem Blocked.later {s t : Store} (h : ev.Blocked old n s) (hst : s.Grows s.records.size t) :
    ev.Blocked old n t := by
  intro z hold hz later u W a hlater
  exact h z hold ((hst.running z).1 hz) later u W a
    (hst.toExtends.trans hlater hst.covers.records)

namespace RefinesByName

variable {carryOut : (c : Call) → Store → Outcome c.Reply} (h : ev.RefinesByName old carryOut)
  {x y : Program Value} {W : Pairing} {s t : Store} (hs : s.WellFormed s.records.size)
  (hx : x.GivesValue s.records.size s) (hfaithful : ev.Faithful old s.records.size s)
  (hold : old ≤ s.cells.size) (hxy : x.GivesAlike y t.records.size (W.upto s))
  (hW : s.Alike W t) (hfrom : W.From old)

include h hs hx hfaithful hold hxy hW hfrom

/-- An error that the program raises itself is raised by name. -/
theorem run_raise {e : EvalError} {u : Store} (hreaches : x.Reaches carryOut s (.raise e) u) :
    e.IsRaised ∧
      ∃ t', Eventually (fun n => y.run (ev.carryOutFreely .byName n) t) (.error e t') := by
  obtain ⟨b, -, hwf, hgrows, -⟩ := (hx hs).reaches h.promised hs hreaches
  exact (h.coupling u).run_raise hs hx (h.along hs hx hfaithful) hxy
    (hW.later hgrows.toExtends) ⟨hold, hfrom⟩ (.refl _ u) (.refl _ u) hreaches

/-- Where a run makes a call, the run by name makes a call that is alike. -/
theorem run_call {c : Call} {next : c.Reply → Program Value} {u : Store}
    (hreaches : x.Reaches carryOut s (.call c next) u) :
    u.WellFormed u.records.size ∧ c.Valid u ∧ ev.Faithful old u.records.size u ∧
      s.Grows s.records.size u ∧ old ≤ u.cells.size ∧
        ∃ (d : Call) (next' : d.Reply → Program Value) (W' : Pairing) (t' : Store),
          u.Alike W' t' ∧ W'.From old ∧ c.Alike W' d ∧
            Tracks (fun n => y.run (ev.carryOutFreely .byName n) t)
              fun n => (Program.call d next').run (ev.carryOutFreely .byName n) t' := by
  obtain ⟨b, -, hwf, hgrows, hcall⟩ := (hx hs).reaches h.promised hs hreaches
  have halong := h.along hs hx hfaithful
  obtain ⟨⟨-, hfaithful'⟩, -⟩ := halong.reaches hreaches
  obtain ⟨d, next', W', t', -, hW', hcd, ⟨hold', hfrom'⟩, htracks⟩ :=
    (h.coupling u).run_call hs hx halong hxy (hW.later hgrows.toExtends) ⟨hold, hfrom⟩
      (.refl _ u) (.refl _ u) hreaches
  exact ⟨hwf.seal, hcall.1, hfaithful', hgrows, hold', d, next', W', t', hW', hfrom', hcd, htracks⟩

/-- An error of a call ends both runs. -/
theorem run_error (hcalls : ∀ {c d : Call} {s t u : Store} {e : EvalError} {W : Pairing},
      s.WellFormed s.records.size → c.Valid s → ev.Faithful old s.records.size s →
      old ≤ s.cells.size → carryOut c s = .error e u → e.IsRaised → s.Alike W t → W.From old →
      c.Alike W d → ∃ t', Eventually (fun n => ev.carryOutFreely .byName n d t) (.error e t'))
    {e : EvalError} {u : Store} (hrun : x.run carryOut s = .error e u) (he : e.IsRaised) :
    ∃ t', Eventually (fun n => y.run (ev.carryOutFreely .byName n) t) (.error e t') := by
  rcases Program.reaches_of_run_error hrun with hraise | ⟨c, next, v, hcall, hfails⟩
  · exact (h.run_raise hs hx hfaithful hold hxy hW hfrom hraise).2
  · obtain ⟨hwf, hc, hfaithful', -, hold', d, next', W', t', hW', hfrom', hcd, htracks⟩ :=
      h.run_call hs hx hfaithful hold hxy hW hfrom hcall
    obtain ⟨t'', n, hn⟩ := hcalls hwf hc hfaithful' hold' hfails he hW' hfrom' hcd
    refine ⟨t'', htracks.outcome ⟨n, fun m hm => ?_⟩⟩
    have hm : ev.carryOutFreely .byName m d t' = .error e t'' := hn m hm
    simp only [Program.run, hm]

/-- Where a run is stuck, the run by name is given up. -/
theorem run_stuck (hcalls : ∀ {c d : Call} {s t : Store} {W : Pairing},
      s.WellFormed s.records.size → c.Valid s → ev.Faithful old s.records.size s →
      old ≤ s.cells.size → ev.Stuck n fuel depth (carryOut c s) → ev.Blocked old n s →
      s.Alike W t → W.From old → c.Alike W d → ev.carryOutFreely .byName n d t = .exhausted)
    (hstuck : ev.Stuck n fuel depth (x.run carryOut s)) (hblocked : ev.Blocked old n s) :
    y.run (ev.carryOutFreely .byName n) t = .exhausted := by
  have hgiven {c : Call} {next : c.Reply → Program Value} {u : Store}
      (hcall : x.Reaches carryOut s (.call c next) u)
      (hstuck : ev.Stuck n fuel depth (carryOut c u)) :
      y.run (ev.carryOutFreely .byName n) t = .exhausted := by
    obtain ⟨hwf, hc, hfaithful', hgrows, hold', d, next', W', t', hW', hfrom', hcd, htracks⟩ :=
      h.run_call hs hx hfaithful hold hxy hW hfrom hcall
    refine htracks.exhausted ?_
    simp only [Program.run,
      hcalls hwf hc hfaithful' hold' hstuck (hblocked.later hgrows) hW' hfrom' hcd]
  cases hrun : x.run carryOut s with
  | value v u =>
    rw [hrun] at hstuck
    exact hstuck.elim
  | error e u =>
    rw [hrun] at hstuck
    rcases Program.reaches_of_run_error hrun with hraise | ⟨c, next, v, hcall, hfails⟩
    · exact absurd (h.run_raise hs hx hfaithful hold hxy hW hfrom hraise).1 hstuck.not_raised
    · exact hgiven hcall (hfails ▸ hstuck)
  | exhausted =>
    rw [hrun] at hstuck
    obtain ⟨c, next, v, hcall, hfails⟩ := Program.reaches_of_run_exhausted hrun
    exact hgiven hcall (hfails ▸ hstuck)

end RefinesByName

/-- An error that programs raise is raised by name. -/
theorem carryOut_raises (hev : ev.registry.types = []) {c d : Call} {s t u : Store} {e : EvalError}
    {W : Pairing} (hs : s.WellFormed s.records.size) (hc : c.Valid s)
    (hfaithful : ev.Faithful old s.records.size s) (hold : old ≤ s.cells.size)
    (hrun : ev.carryOut fuel depth c s = .error e u) (he : e.IsRaised) (hW : s.Alike W t)
    (hfrom : W.From old) (hcd : c.Alike W d) :
    ∃ t', Eventually (fun n => ev.carryOutFreely .byName n d t) (.error e t') := by
  have hr : ev.registry.Sound := Registry.sound_of_types_eq_nil hev
  induction fuel generalizing depth c d s t u e W with
  | zero =>
    rw [carryOut_zero] at hrun
    cases hrun
  | succ fuel ih =>
    cases hcd with
    | @perform k l hkl =>
      have hgives : (ev.taskProgram k).GivesValue s.records.size s := taskProgram_givesValue hr hc
      have halike : (ev.taskProgram k).GivesAlike (ev.taskProgram l) t.records.size (W.upto s) :=
        taskProgram_givesAlike hev (hkl.upto hc)
      cases hkl with
      | evaluate f hscope path =>
        rcases Nat.lt_or_ge depth ev.maxDepth with hdepth | hdepth
        · rw [carryOut_evaluate ev fuel s hdepth] at hrun
          obtain ⟨e, herror, rfl⟩ := Outcome.through_eq_error hrun
          obtain ⟨t', hby⟩ := (ev.carryOut_refinesByName hev fuel (depth + 1)).run_error hs hgives
            hfaithful hold halike hW hfrom ih herror (EvalError.isRaised_through.1 he)
          exact ⟨t', (hby.through f.location).congr fun n =>
            ev.carryOutFreely_evaluate .byName n t f _ path⟩
        · rw [carryOut_evaluate_deep ev fuel s hdepth] at hrun
          cases hrun
          exact he.elim
      | element hfun hindex path location =>
        rw [carryOut_element] at hrun
        obtain ⟨e, herror, rfl⟩ := Outcome.through_eq_error hrun
        obtain ⟨t', hby⟩ := (ev.carryOut_refinesByName hev fuel depth).run_error hs hgives
          hfaithful hold halike hW hfrom ih herror (EvalError.isRaised_through.1 he)
        exact ⟨t', (hby.through location).congr fun n =>
          ev.carryOutFreely_element .byName n t _ _ path location⟩
      | constant hvw =>
        rw [carryOut_constant] at hrun
        cases hrun
    | @force z a hza =>
      cases hprogress : (s.cell z).progress with
      | finished v =>
        rw [carryOut_force_finished ev fuel depth hprogress] at hrun
        cases hrun
      | running =>
        rw [carryOut_force_running ev fuel depth hprogress] at hrun
        cases hrun
        exact he.elim
      | pending =>
        rw [carryOut_force_pending ev fuel depth hprogress] at hrun
        obtain ⟨v, herror, -⟩ := settle_eq_error hrun
        obtain ⟨-, -, htasks, -, -⟩ := hW.cell hza
        have hstart := s.start_extends s.records.size hprogress
        have htask : (Call.perform (s.cell z).task).Valid (s.setProgress z .running) :=
          hs.task_valid hc
        obtain ⟨t', hby⟩ := ih (hs.start hprogress) htask (hfaithful.start hprogress)
          (Nat.le_trans hold hstart.covers.cells) herror he (hW.later hstart) hfrom
          (.perform htasks)
        exact ⟨t', hby.congr fun n => ev.carryOutFreely_byName_force n t a⟩

/-- A cell blocks itself: if its copies are given up with less fuel, they are with more. -/
theorem force_stuck {s : Store} {z : CellId} (hpending : (s.cell z).progress = .pending)
    (hblocked : ev.Blocked old n s)
    (hbody : ∀ k ≤ n, ev.Blocked old k (s.setProgress z .running) →
      ∀ (later t : Store) (W : Pairing) (a : CellId), s.Extends s.records.size later →
        later.Alike W t → W.From old → W.cell z a →
          (ev.carryOutFreely .byName k (.perform (t.cell a).task) t : Outcome Value) = .exhausted)
    {k : Nat} (hk : k ≤ n + 1) {later t : Store} {W : Pairing} {a : CellId}
    (hlater : s.Extends s.records.size later) (hW : later.Alike W t) (hfrom : W.From old)
    (hza : W.cell z a) :
    (ev.carryOutFreely .byName k (.force a) t : Outcome Value) = .exhausted := by
  induction k generalizing later t W a with
  | zero => rw [carryOutFreely]
  | succ k ih =>
    refine hbody k (by omega) ?_ later t W a hlater hW hfrom hza
    intro y hy hrunning later' u W' b hlater' hW' hfrom' hyb
    have hsu := (s.start_extends s.records.size hpending).trans hlater' (Nat.le_refl _)
    rcases Store.setProgress_running_iff.1 hrunning with ⟨rfl, -⟩ | hrunning
    · exact ih (by omega) hsu hW' hfrom' hyb
    · exact (hblocked.mono (by omega)) y hy hrunning later' u W' b hsu hW' hfrom' hyb

/-- Where sharing finds a cycle or reaches a limit, evaluation by name is given up. -/
theorem carryOut_stuck (hev : ev.registry.types = []) {c d : Call} {s t : Store} {W : Pairing}
    (hs : s.WellFormed s.records.size) (hc : c.Valid s)
    (hfaithful : ev.Faithful old s.records.size s) (hold : old ≤ s.cells.size)
    (hstuck : ev.Stuck n fuel depth (ev.carryOut fuel depth c s)) (hblocked : ev.Blocked old n s)
    (hW : s.Alike W t) (hfrom : W.From old) (hcd : c.Alike W d) :
    ev.carryOutFreely .byName n d t = .exhausted := by
  have hr : ev.registry.Sound := Registry.sound_of_types_eq_nil hev
  induction fuel generalizing n depth c d s t W with
  | zero =>
    rw [carryOut_zero] at hstuck
    have hn : n = 0 := Nat.eq_zero_of_le_zero hstuck
    rw [hn, carryOutFreely]
  | succ fuel ih =>
    cases n with
    | zero => rw [carryOutFreely]
    | succ n =>
      have hrest := hblocked.mono (Nat.le_succ n)
      cases hcd with
      | @perform k l hkl =>
        have hgives : (ev.taskProgram k).GivesValue s.records.size s :=
          taskProgram_givesValue hr hc
        have halike : (ev.taskProgram k).GivesAlike (ev.taskProgram l) t.records.size (W.upto s) :=
          taskProgram_givesAlike hev (hkl.upto hc)
        cases hkl with
        | evaluate e hscope path =>
          rcases Nat.lt_or_ge depth ev.maxDepth with hdepth | hdepth
          · rw [carryOut_evaluate ev fuel s hdepth] at hstuck
            have hby := (ev.carryOut_refinesByName hev fuel (depth + 1)).run_stuck hs hgives
              hfaithful hold halike hW hfrom ih hstuck.inside hrest
            exact (ev.carryOutFreely_evaluate .byName n t e _ path).trans (by rw [hby]; rfl)
          · rw [carryOut_evaluate_deep ev fuel s hdepth] at hstuck
            have hfits : depth + (n + 1) ≤ ev.maxDepth := hstuck
            omega
        | element hfun hindex path location =>
          rw [carryOut_element] at hstuck
          have hby := (ev.carryOut_refinesByName hev fuel depth).run_stuck hs hgives
            hfaithful hold halike hW hfrom ih (hstuck.inside.mono (by omega) id) hrest
          exact (ev.carryOutFreely_element .byName n t _ _ path location).trans (by rw [hby]; rfl)
        | constant hvw =>
          rw [carryOut_constant] at hstuck
          exact hstuck.elim
      | @force z a hza =>
        cases hprogress : (s.cell z).progress with
        | finished v =>
          rw [carryOut_force_finished ev fuel depth hprogress] at hstuck
          exact hstuck.elim
        | running =>
          exact hblocked z (hfrom z a hza) hprogress s t W a (.refl _ s) hW hfrom hza
        | pending =>
          rw [carryOut_force_pending ev fuel depth hprogress] at hstuck
          have hstart := s.start_extends s.records.size hprogress
          have htask : (Call.perform (s.cell z).task).Valid (s.setProgress z .running) :=
            hs.task_valid hc
          refine force_stuck hprogress hrest (fun k hk hbegun later t W a hlater hW hfrom hza => ?_)
            (Nat.le_refl _) (.refl _ s) hW hfrom hza
          have hWs := hW.upto hs hlater
          obtain ⟨-, -, htasks, -, -⟩ := hWs.cell ⟨hza, hc⟩
          exact ih (n := k) (hs.start hprogress) htask (hfaithful.start hprogress)
            (Nat.le_trans hold hstart.covers.cells)
            (hstuck.of_settle.mono (by omega) (by omega)) hbegun (hWs.later hstart)
            (fun c d hcd => hfrom c d hcd.1) (.perform htasks)

end Evaluator

end NetDesc
