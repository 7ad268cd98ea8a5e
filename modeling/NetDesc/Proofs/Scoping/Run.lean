import Mathlib.Logic.Relation
import NetDesc.Proofs.Run.Reaches
import NetDesc.Proofs.Scoping.Standard

namespace NetDesc

open Relation (ReflTransGen)

namespace Evaluator

/-- The call is no call of a function that passes a named argument which the function does not
    declare. -/
def PassesDeclared (ev : Evaluator) (m : Moment) : Prop :=
  ∀ fuel func args location scope path, m.fuel = fuel + 1 →
    m.call = .perform (.evaluate (.mk (.apply func args) location) scope path) →
      DeclaredAt (ev.carryOut fuel (m.depth + 1)) func args scope path m.store

end Evaluator

namespace Store

variable {S : Scoping} {base : Nat} {s : Store}

/-- Once no record is being filled, all of them are sealed. -/
theorem Settled.seal (hs : s.Settled S base) : s.Settled S s.records.size where
  base_le := Nat.le_refl _
  value c v hv := (hs.value c v hv).later (.refl base s) hs.base_le
  pendingInput n c hc := (hs.pendingInput n c hc).later (.refl base s) hs.base_le
  network n hn :=
    ⟨Nat.lt_of_lt_of_le (hs.network n hn).1 hs.base_le,
      (hs.network n hn).2.later (.refl base s) hs.base_le (hs.network n hn).1⟩

theorem Settled.setProgress (hs : s.Settled S s.records.size) {c : CellId} {p : Progress}
    (hc : ∀ v, (s.cell c).progress ≠ .finished v)
    (hp : ∀ v, p = .finished v → v.Placed S s.records.size s) :
    (s.setProgress c p).Settled S s.records.size := by
  have hext := s.setProgress_extends s.records.size c p hc
  refine ⟨Nat.le_refl _, fun d v hv => ?_, fun n d hd => ?_, fun n hn => ?_⟩
  · rw [setProgress_cell] at hv
    split at hv
    · exact (hp v hv).later hext (Nat.le_refl _)
    · exact (hs.value d v hv).later hext (Nat.le_refl _)
  · exact (hs.pendingInput n d hd).later hext (Nat.le_refl _)
  · obtain ⟨hlt, hmembers⟩ := hs.network n hn
    exact ⟨hlt, hmembers.later hext (Nat.le_refl _) hlt⟩

end Store

/-- The store that is left is settled, and a result is as `P` says. -/
def Outcome.Settles {α : Type} (S : Scoping) (P : Store → α → Prop) : Outcome α → Prop
  | value a t => t.Settled S t.records.size ∧ P t a
  | error _ t => t.Settled S t.records.size
  | exhausted => True

theorem Outcome.Settles.through {α : Type} {S : Scoping} {P : Store → α → Prop} {o : Outcome α}
    (ho : o.Settles S P) (location : Location) : (o.through location).Settles S P := by
  cases o <;> exact ho

/-- The call refers to what is there and is placed, and so is whatever the store holds. -/
structure Call.Good (S : Scoping) (s : Store) (c : Call) : Prop where
  wellFormed : s.WellFormed s.records.size
  valid : c.Valid s
  settled : s.Settled S s.records.size
  placed : c.Placed S s.records.size s

/-- To compute a good cell is a good call. -/
theorem Call.Good.force {S : Scoping} {s : Store} {c : CellId} (h : (Call.force c).Good S s)
    (hpending : (s.cell c).progress = .pending) :
    (Call.perform (s.cell c).task).Good S (s.setProgress c .running) := by
  obtain ⟨hwf, hvalid, hsettled, hplaced⟩ := h
  have hunfinished (v : Value) : (s.cell c).progress ≠ .finished v := by simp [hpending]
  refine ⟨hwf.start hpending, hwf.task_valid hvalid,
    hsettled.setProgress hunfinished (by rintro v ⟨⟩), ?_⟩
  have htask := hplaced.2.later (s.start_extends _ hpending) (Nat.le_refl _)
  have hconstant (v : Value) : (s.cell c).task ≠ .constant v := fun h =>
    hunfinished v ((hwf.cell c hvalid).constant v h)
  generalize (s.cell c).task = task at htask hconstant
  cases task with
  | constant v => exact absurd rfl (hconstant v)
  | _ => exact htask

namespace Program

variable {α : Type} {S : Scoping} {carryOut : (c : Call) → Store → Outcome c.Reply} {base : Nat}
  {s : Store} {p : Program α}

/-- Good calls that the run of a program makes are answered as they should be. -/
def AnswersSettled (S : Scoping) (carryOut : (c : Call) → Store → Outcome c.Reply)
    (p : Program α) (s : Store) : Prop :=
  ∀ (c : Call) (next : c.Reply → Program α) (t : Store), Reaches carryOut p s (.call c next) t →
    c.Good S t → (carryOut c t).Settles S fun u reply => c.Answers S u.records.size u reply

variable {P Q : Nat → Store → α → Prop}

/-- What is left of a program keeps what the program keeps. -/
theorem Keeps.reaches (hcalls : Promised carryOut) {q : Program α} {t : Store}
    (h : Reaches carryOut p s q t) (hanswers : AnswersSettled S carryOut p s)
    (hwf : s.WellFormed base) (hs : s.Settled S base) (hp : p.Meets Q base s)
    (hkeeps : p.Keeps S carryOut P base s) :
    ∃ b, t.WellFormed b ∧ t.Settled S b ∧ q.Meets Q b t ∧ q.Keeps S carryOut P b t := by
  induction h generalizing base with
  | start p s => exact ⟨base, hwf, hs, hp, hkeeps⟩
  | access _ ih =>
    obtain ⟨hallowed, hnext⟩ := hp
    obtain ⟨hfits, hkeeps⟩ := hkeeps
    have hext := (hallowed.grows hwf).toExtends
    exact ih (fun c next t ht => hanswers c next t (.access ht)) (hallowed.wellFormed hwf)
      (hfits.settled hs hext) hnext (hkeeps hext)
  | @reply c next s t u reply q hreply _ ih =>
    obtain ⟨hvalid, hnext⟩ := hp
    obtain ⟨hplaced, hkeeps⟩ := hkeeps
    have hcall := hcalls c s hwf.seal hvalid
    have hanswer := hanswers c next s (.start _ _) ⟨hwf.seal, hvalid, hs.seal, hplaced⟩
    rw [hreply] at hcall hanswer
    obtain ⟨hwf', hgrows, hanswered⟩ := hcall
    exact ih (fun c next t ht => hanswers c next t (.reply hreply ht)) hwf' hanswer.1
      (hnext u reply hwf' hgrows hanswered)
      (hkeeps u reply hreply hanswer.1 hgrows.toExtends hanswer.2)

/-- Whenever the run of a program makes a call, the call is good. -/
theorem Keeps.good (hcalls : Promised carryOut) {c : Call} {next : c.Reply → Program α} {t : Store}
    (h : Reaches carryOut p s (.call c next) t)
    (hanswers : AnswersSettled S carryOut p s) (hwf : s.WellFormed base)
    (hs : s.Settled S base) (hp : p.Meets Q base s) (hkeeps : p.Keeps S carryOut P base s) :
    c.Good S t := by
  obtain ⟨b, hwf', hs', hmeets, hkeeps'⟩ := Keeps.reaches hcalls h hanswers hwf hs hp hkeeps
  exact ⟨hwf'.seal, hmeets.1, hs'.seal, hkeeps'.1⟩

/-- A run ends as the program maintains. -/
theorem Maintains.run {P : Store → α → Prop} {Q : Nat → Store → α → Prop}
    (hcalls : Promised carryOut) (hwf : s.WellFormed s.records.size)
    (hs : s.Settled S s.records.size) (hp : p.Ensures s.records.size s Q)
    (hkeeps : p.Maintains S carryOut s.records.size s fun _ t a => P t a)
    (hanswers : AnswersSettled S carryOut p s) :
    (p.run carryOut s).Settles S P := by
  cases hrun : p.run carryOut s with
  | value a t =>
    obtain ⟨b, -, -, -, hsettled, -, -, ha⟩ := Keeps.reaches hcalls (reaches_of_run_value hrun)
      hanswers hwf hs (hp hwf) (hkeeps hs)
    exact ⟨hsettled.seal, ha⟩
  | error e t =>
    obtain h | ⟨c, next, u, h, hcall⟩ := reaches_of_run_error hrun
    · obtain ⟨b, -, hsettled, -⟩ := Keeps.reaches hcalls h hanswers hwf hs (hp hwf) (hkeeps hs)
      exact hsettled.seal
    · have hanswer := hanswers c next u h
        (Keeps.good hcalls h hanswers hwf hs (hp hwf) (hkeeps hs))
      rw [hcall] at hanswer
      exact hanswer
  | exhausted => trivial

end Program

namespace Evaluator

variable {S : Scoping} {ev : Evaluator} (hsound : ev.registry.Sound) (hr : ev.registry.Places)

/-- A cell is settled with a placed value, or put back to be tried again. -/
theorem settle_settles {s : Store} {c : CellId} (hc : c < s.cells.size) {o : Outcome Value}
    {P : Store → Value → Prop} (hkept : o.Kept (s.setProgress c .running) P)
    (ho : o.Settles S fun t v => v.Placed S t.records.size t) :
    (settle c o).Settles S fun t v => v.Placed S t.records.size t := by
  cases o with
  | value v t =>
    have hunfinished (w : Value) : (t.cell c).progress ≠ .finished w := by
      rw [hkept.2.1.running_start hc]
      rintro ⟨⟩
    refine ⟨ho.1.setProgress hunfinished ?_, ?_⟩
    · rintro w ⟨⟩
      exact ho.2
    · exact ho.2.later (t.setProgress_extends _ c _ hunfinished) (Nat.le_refl _)
  | error e t =>
    have hunfinished (w : Value) : (t.cell c).progress ≠ .finished w := by
      rw [hkept.2.running_start hc]
      rintro ⟨⟩
    exact ho.setProgress hunfinished (by rintro w ⟨⟩)
  | exhausted => trivial

include hr

/-- Every computation that is put off gives a placed value. -/
theorem taskProgram_maintains {carryOut : (c : Call) → Store → Outcome c.Reply} {base : Nat}
    {s : Store} {task : Task} (htask : (Call.perform task).Placed S base s)
    (hdeclared : S.declaredOnly → ∀ func args location scope path,
      task = .evaluate (.mk (.apply func args) location) scope path →
        DeclaredAt carryOut func args scope path s) :
    (ev.taskProgram task).Maintains S carryOut base s fun _ t v =>
      v.Placed S t.records.size t := by
  cases task with
  | evaluate e scope path =>
    obtain ⟨kind, location⟩ := e
    refine evaluateKind_maintains hr htask fun hd func args hkind => ?_
    subst hkind
    exact hdeclared hd func args location scope path rfl
  | element initializer index path location =>
    obtain ⟨hf, x, hx⟩ := htask
    have hindex : index.Placed S base s := by simp only [Value.Placed, hx, Payload.Placed]
    exact .closed (Function.apply_maintains hf (by simpa using hindex) (by simp) (by simp) _ _)
  | constant v => exact .closed (.pure htask)

include hsound

/-- Carrying out a good call leaves a settled store and gives a placed answer. If this is taken for
    granted, calls inside of it have to pass declared arguments only. -/
theorem carryOut_settles (fuel depth : Nat) (c : Call) (s : Store)
    (hgood : c.Good S s)
    (hdeclared : S.declaredOnly →
      ∀ m, ReflTransGen ev.LeadsTo ⟨fuel, depth, c, s⟩ m → ev.PassesDeclared m) :
    (ev.carryOut fuel depth c s).Settles S fun t reply => c.Answers S t.records.size t reply := by
  induction fuel generalizing depth c s with
  | zero => exact (carryOut_zero ev depth s c).symm ▸ trivial
  | succ fuel ih =>
    obtain ⟨hwf, hvalid, hsettled, hplaced⟩ := hgood
    have hanswers {α : Type} {p : Program α} (depth' : Nat)
        (hleads : ∀ (c' : Call) (next : c'.Reply → Program α) t,
          p.Reaches (ev.carryOut fuel depth') s (.call c' next) t →
            ev.LeadsTo ⟨fuel + 1, depth, c, s⟩ ⟨fuel, depth', c', t⟩) :
        p.AnswersSettled S (ev.carryOut fuel depth') s := fun c' next t h hgood' =>
      ih depth' c' t hgood' fun hd m hm => hdeclared hd m (hm.head (hleads c' next t h))
    have hpromised (depth' : Nat) := carryOut_promised hsound fuel depth'
    cases c with
    | perform task =>
      have htask : task.Valid s := hvalid
      have hdeclared' (hd : S.declaredOnly) func args location scope path
          (heq : task = .evaluate (.mk (.apply func args) location) scope path) :
          DeclaredAt (ev.carryOut fuel (depth + 1)) func args scope path s :=
        hdeclared hd _ .refl fuel func args location scope path rfl (heq ▸ rfl)
      cases task with
      | evaluate e scope path =>
        rcases Nat.lt_or_ge depth ev.maxDepth with hdepth | hdepth
        · rw [carryOut_evaluate ev fuel s hdepth]
          refine Outcome.Settles.through ?_ e.location
          exact Program.Maintains.run (hpromised _) hwf hsettled
            (taskProgram_givesValue hsound htask) (taskProgram_maintains hr hplaced hdeclared')
            (hanswers (depth + 1) fun c' next t h => .evaluate hdepth h)
        · rw [carryOut_evaluate_deep ev fuel s hdepth]
          exact hsettled
      | element initializer index path location =>
        rw [carryOut_element]
        refine Outcome.Settles.through ?_ location
        exact Program.Maintains.run (hpromised _) hwf hsettled
          (taskProgram_givesValue hsound htask)
          (taskProgram_maintains hr hplaced (by rintro _ _ _ _ _ _ ⟨⟩))
          (hanswers depth fun c' next t h => .element h)
      | constant v => exact ⟨hsettled, hplaced⟩
    | force cell =>
      cases hprogress : (s.cell cell).progress with
      | finished v =>
        rw [carryOut_force_finished ev fuel depth hprogress]
        exact ⟨hsettled, hsettled.value cell v hprogress⟩
      | running =>
        rw [carryOut_force_running ev fuel depth hprogress]
        exact hsettled
      | pending =>
        rw [carryOut_force_pending ev fuel depth hprogress]
        have htask := Call.Good.force ⟨hwf, hvalid, hsettled, hplaced⟩ hprogress
        refine settle_settles hvalid (hpromised depth _ _ htask.wellFormed htask.valid) ?_
        exact ih depth _ _ htask fun hd m hm => hdeclared hd m (hm.head (.force hprogress))
    | render spec v =>
      exact Program.Maintains.run (hpromised _) hwf hsettled (Render.value_ensures spec hvalid)
        ((Render.value_maintains spec hplaced).imp fun _ _ _ _ _ h => h)
        (hanswers depth fun c' next t h => .render h)
    | tie work visited =>
      exact Program.Maintains.run (hpromised _) hwf hsettled (Network.tieStep_ensures hvalid)
        (Network.tieStep_maintains work visited) (hanswers depth fun c' next t h => .tie h)

/-- The calls inside of a good call are good. So whenever a call is carried out it is placed, and
    the store is settled. -/
theorem LeadsTo.good {m m' : Moment} (h : ev.LeadsTo m m') (hgood : m.call.Good S m.store)
    (hdeclared : S.declaredOnly → ∀ m', ReflTransGen ev.LeadsTo m m' → ev.PassesDeclared m') :
    m'.call.Good S m'.store := by
  have hanswers {α : Type} {p : Program α} {fuel depth : Nat} {s : Store}
      (hleads : ∀ (c : Call) (next : c.Reply → Program α) t,
        p.Reaches (ev.carryOut fuel depth) s (.call c next) t →
          ev.LeadsTo m ⟨fuel, depth, c, t⟩) :
      p.AnswersSettled S (ev.carryOut fuel depth) s := fun c next t h hgood' =>
    carryOut_settles hsound hr fuel depth c t hgood' fun hd m' hm' =>
      hdeclared hd m' (hm'.head (hleads c next t h))
  have hpromised (fuel depth : Nat) := carryOut_promised hsound fuel depth
  obtain ⟨hwf, hvalid, hsettled, hplaced⟩ := hgood
  cases h with
  | @evaluate fuel depth e scope path s t c next hdepth h =>
    refine Program.Keeps.good (hpromised _ _) h
      (hanswers fun c' next t h => .evaluate hdepth h) hwf hsettled
      (taskProgram_givesValue hsound hvalid hwf) (taskProgram_maintains hr hplaced ?_ hsettled)
    rintro hd func args location scope path ⟨⟩
    exact hdeclared hd _ .refl fuel func args location scope path rfl rfl
  | element h =>
    exact Program.Keeps.good (hpromised _ _) h (hanswers fun c' next t h => .element h) hwf
      hsettled (taskProgram_givesValue hsound hvalid hwf)
      (taskProgram_maintains hr hplaced (by rintro _ _ _ _ _ _ ⟨⟩) hsettled)
  | force hpending => exact Call.Good.force ⟨hwf, hvalid, hsettled, hplaced⟩ hpending
  | @render fuel depth spec v s t c next h =>
    exact Program.Keeps.good (hpromised _ _) h (hanswers fun c' next t h => .render h) hwf
      hsettled (Render.value_ensures spec hvalid hwf) (Render.value_maintains spec hplaced hsettled)
  | @tie fuel depth work visited s t c next h =>
    exact Program.Keeps.good (hpromised _ _) h (hanswers fun c' next t h => .tie h) hwf hsettled
      (Network.tieStep_ensures hvalid hwf) (Network.tieStep_maintains work visited hsettled)

theorem good_of_reflTransGen {m m' : Moment} (h : ReflTransGen ev.LeadsTo m m')
    (hgood : m.call.Good S m.store)
    (hdeclared : S.declaredOnly → ∀ m', ReflTransGen ev.LeadsTo m m' → ev.PassesDeclared m') :
    m'.call.Good S m'.store := by
  induction h with
  | refl => exact hgood
  | tail hm h ih =>
    exact h.good hsound hr ih fun hd m' hm' => hdeclared hd m' (hm.trans hm')

end Evaluator

end NetDesc
