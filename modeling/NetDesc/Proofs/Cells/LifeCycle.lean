import NetDesc.Proofs.Cells.History
import NetDesc.Proofs.Session
import NetDesc.Expr.Build

namespace NetDesc

/-- How far a cell has come, as one can tell from its history. It waits for its first access, is
    computed, and keeps the value; a computation that fails leaves it waiting. An access while
    the computation is running spoils the computation, which then cannot but fail. -/
inductive Phase where
  | absent
  | waiting
  | busy
  /-- The running computation has been refused the value of its own cell. -/
  | spoiled
  | kept
deriving DecidableEq

/-- The cell that something happens to. -/
def Event.cell? : Event → Option CellId
  | made c _ => some c
  | started c => some c
  | finished c => some c
  | failed c => some c
  | reused c => some c
  | refused c => some c
  | printed _ | entered _ | left | raised _ => none

namespace Phase

def ofProgress : Progress → Phase
  | .pending => waiting
  | .running => busy
  | .finished _ => kept

/-- What may happen to a cell in a phase, and the phase after it. -/
def step : Phase → Event → Option Phase
  | absent, .made _ p => some (ofProgress p)
  | waiting, .started _ => some busy
  | busy, .refused _ => some spoiled
  | busy, .finished _ => some kept
  | busy, .failed _ => some waiting
  | spoiled, .failed _ => some waiting
  | kept, .reused _ => some kept
  | _, _ => none

/-- The phase of a cell after an event, which may be about another cell. -/
def next? (c : CellId) (phase : Phase) (e : Event) : Option Phase :=
  if e.cell? = some c then phase.step e else some phase

/-- The phase of a cell after a history, if the cell can have lived through it. -/
def after? (c : CellId) (phase : Phase) (events : List Event) : Option Phase :=
  events.foldlM (next? c) phase

variable {c : CellId} {phase : Phase} {events : List Event}

@[simp]
theorem after?_nil : after? c phase [] = some phase := rfl

@[simp]
theorem after?_cons (e : Event) :
    after? c phase (e :: events) = (next? c phase e).bind fun q => after? c q events := rfl

theorem after?_append (more : List Event) :
    after? c phase (events ++ more) = (after? c phase events).bind fun q => after? c q more :=
  List.foldlM_append

theorem next?_of_ne {e : Event} (h : e.cell? ≠ some c) : next? c phase e = some phase :=
  if_neg h

theorem next?_own {e : Event} (h : e.cell? = some c) : next? c phase e = phase.step e :=
  if_pos h

/-- That something is entered and left happens to no cell. -/
theorem after?_entered (location : Location) :
    after? c phase (.entered location :: events ++ [.left]) = after? c phase events := by
  have hleft (q : Phase) : next? c q .left = some q := next?_of_ne (by rintro ⟨⟩)
  rw [after?_append, after?_cons, next?_of_ne (by rintro ⟨⟩)]
  cases h : after? c phase events <;> simp [hleft, h]

/-- A cell that keeps its value is not computed again. -/
theorem after?_kept {q : Phase} (h : after? c kept events = some q) :
    q = kept ∧ .started c ∉ events ∧ .finished c ∉ events := by
  induction events with
  | nil => exact ⟨(Option.some.inj h).symm, by simp, by simp⟩
  | cons e events ih =>
    rw [after?_cons] at h
    by_cases hown : e.cell? = some c
    · rw [next?_own hown] at h
      cases e with
      | reused d =>
        obtain ⟨hq, hstarted, hfinished⟩ := ih h
        exact ⟨hq, by simpa using hstarted, by simpa using hfinished⟩
      | _ => cases h
    · rw [next?_of_ne hown] at h
      obtain ⟨hq, hstarted, hfinished⟩ := ih h
      refine ⟨hq, ?_, ?_⟩
      all_goals
        rw [List.mem_cons, not_or]
        refine ⟨?_, by assumption⟩
        rintro rfl
        exact hown rfl

/-- A spoiled computation stays spoiled until it fails. -/
theorem after?_spoiled {q : Phase} (h : after? c spoiled events = some q)
    (hfailed : .failed c ∉ events) : q = spoiled := by
  induction events with
  | nil => exact (Option.some.inj h).symm
  | cons e events ih =>
    rw [List.mem_cons, not_or] at hfailed
    rw [after?_cons] at h
    by_cases hown : e.cell? = some c
    · rw [next?_own hown] at h
      cases e with
      | failed d =>
        cases hown
        exact absurd rfl hfailed.1
      | _ => cases h
    · rw [next?_of_ne hown] at h
      exact ih h hfailed.2

/-- Nothing happens to a cell while it is computed, unless the computation fails. -/
theorem after?_busy (h : after? c busy events = some busy) (hfailed : .failed c ∉ events) :
    ∀ e ∈ events, e.cell? ≠ some c := by
  induction events with
  | nil => exact fun e he => absurd he List.not_mem_nil
  | cons e events ih =>
    rw [List.mem_cons, not_or] at hfailed
    rw [after?_cons] at h
    by_cases hown : e.cell? = some c
    · rw [next?_own hown] at h
      exfalso
      cases e with
      | failed d =>
        cases hown
        exact hfailed.1 rfl
      | refused d => cases after?_spoiled h hfailed.2
      | finished d => cases (after?_kept h).1
      | _ => cases h
    · rw [next?_of_ne hown] at h
      rw [List.forall_mem_cons]
      exact ⟨hown, ih h hfailed.2⟩

/-- The computation of a cell gives a value once at most. -/
theorem not_mem_of_finished {q : Phase} {before after : List Event}
    (h : after? c phase (before ++ .finished c :: after) = some q) :
    .started c ∉ after ∧ .finished c ∉ after := by
  rw [after?_append, Option.bind_eq_some_iff] at h
  obtain ⟨p, -, h⟩ := h
  rw [after?_cons, next?_own rfl] at h
  cases p with
  | busy => exact (after?_kept h).2
  | _ => cases h

/-- Nothing has happened to a cell while it was computed, if the computation has given a value. -/
theorem untouched_of_finished {q : Phase} {before during after : List Event}
    (h : after? c phase (before ++ .started c :: during ++ .finished c :: after) = some q)
    (hfailed : .failed c ∉ during) : ∀ e ∈ during, e.cell? ≠ some c := by
  rw [after?_append, after?_append, Option.bind_assoc, Option.bind_eq_some_iff] at h
  obtain ⟨p, -, h⟩ := h
  rw [after?_cons, next?_own rfl] at h
  cases p with
  | waiting =>
    obtain ⟨r, hr, h⟩ := Option.bind_eq_some_iff.1 h
    rw [after?_cons, next?_own rfl] at h
    cases r with
    | busy => exact after?_busy hr hfailed
    | _ => cases h
  | _ => cases h

end Phase

namespace Store

/-- The phase of a cell, as far as the store shows it. -/
def phase (s : Store) (c : CellId) : Phase :=
  if c < s.cells.size then .ofProgress (s.cell c).progress else .absent

variable {s t : Store} {c : CellId}

theorem phase_of_lt (hc : c < s.cells.size) : s.phase c = .ofProgress (s.cell c).progress :=
  if_pos hc

theorem phase_eq_busy_iff : s.phase c = .busy ↔ (s.cell c).progress = .running := by
  unfold phase
  split
  · cases (s.cell c).progress <;> simp [Phase.ofProgress]
  · next hc =>
    rw [cell_of_size_le (Nat.le_of_not_lt hc)]
    simp [default, Cell.ready]

theorem phase_congr (h : t.cells = s.cells) : t.phase c = s.phase c := by
  simp only [phase, cell, h]

theorem phase_setProgress_self (hc : c < s.cells.size) (p : Progress) :
    (s.setProgress c p).phase c = .ofProgress p := by
  simp [phase, setProgress_cell, hc]

theorem phase_setProgress_of_ne {d : CellId} (h : d ≠ c) (p : Progress) :
    (s.setProgress d p).phase c = s.phase c := by
  simp [phase, setProgress_cell, h]

end Store

/-- Every cell lives through the history and ends in the phase that the store shows. After an error
    the computations that are still running may be spoiled. -/
def Outlives (s : Store) (events : List Event) {α : Type} : Outcome α → Prop
  | .value _ t => ∀ c, Phase.after? c (s.phase c) events = some (t.phase c)
  | .error _ t => ∀ c, Phase.after? c (s.phase c) events = some (t.phase c) ∨
      t.phase c = .busy ∧ Phase.after? c (s.phase c) events = some .spoiled
  | .exhausted => True

theorem Outlives.through {s : Store} {events : List Event} {α : Type} {o : Outcome α}
    (h : Outlives s events o) (location : Location) : Outlives s events (o.through location) := by
  cases o <;> exact h

theorem Outlives.entered {s : Store} {events : List Event} {α : Type} {o : Outcome α}
    (h : Outlives s events o) (location : Location) :
    Outlives s (.entered location :: events ++ [.left]) o := by
  cases o with
  | value a t => exact fun c => (Phase.after?_entered location).trans (h c)
  | error e t =>
    intro c
    rw [Phase.after?_entered]
    exact h c
  | exhausted => trivial

theorem Outlives.append {s t : Store} {events more : List Event} {α : Type} {o : Outcome α}
    (h : ∀ c, Phase.after? c (s.phase c) events = some (t.phase c)) (ho : Outlives t more o) :
    Outlives s (events ++ more) o := by
  cases o with
  | value a u =>
    intro c
    rw [Phase.after?_append, h c]
    exact ho c
  | error e u =>
    intro c
    rw [Phase.after?_append, h c]
    exact ho c
  | exhausted => trivial

/-- A step lets every cell live on. -/
theorem Access.history_after (a : Access) (s : Store) (c : CellId) :
    Phase.after? c (s.phase c) (a.history s) = some ((a.perform s).2.phase c) := by
  cases a with
  | newCell d =>
    by_cases hc : c = s.cells.size
    · subst hc
      simp [history, Phase.next?, Event.cell?, Store.phase, Phase.step, perform]
    · have hne : s.cells.size ≠ c := fun h => hc h.symm
      have hlt : c < s.cells.size + 1 ↔ c < s.cells.size :=
        ⟨fun h => Nat.lt_of_le_of_ne (Nat.le_of_lt_succ h) hc, Nat.lt_succ_of_lt⟩
      simp [history, Phase.next?, Event.cell?, Store.phase, perform, hc, hne, hlt]
  | rename o name => cases o <;> exact congrArg some (Store.phase_congr rfl).symm
  | _ => exact congrArg some (Store.phase_congr rfl).symm

namespace Program

variable {α : Type} {carryOut : (c : Call) → Store → Outcome c.Reply}
  {inside : Call → Store → List Event}

/-- In a run every cell lives through its history. -/
theorem Meets.outlives {P : Nat → Store → α → Prop} {p : Program α} {base : Nat} {s : Store}
    (hcalls : Promised carryOut)
    (hinside : ∀ c s, s.WellFormed s.records.size → c.Valid s →
      Outlives s (inside c s) (carryOut c s))
    (hs : s.WellFormed base) (hp : p.Meets P base s) :
    Outlives s (p.history carryOut inside s) (p.run carryOut s) := by
  induction p generalizing base s with
  | done result => exact fun c => rfl
  | raise e => exact fun c => .inl rfl
  | access a next ih =>
    exact .append (a.history_after s) (ih _ (hp.1.wellFormed hs) hp.2)
  | call c next ih =>
    have hcall := hinside c s hs.seal hp.1
    have hkept := hcalls c s hs.seal hp.1
    rw [Program.run, history]
    cases hreply : carryOut c s with
    | value reply t =>
      rw [hreply] at hcall hkept
      obtain ⟨hwf, hgrows, hanswer⟩ := hkept
      exact .append hcall (ih reply hwf (hp.2 t reply hwf hgrows hanswer))
    | error e t =>
      rw [hreply] at hcall
      rw [List.append_nil]
      exact hcall
    | exhausted => trivial

end Program

namespace Evaluator

variable {ev : Evaluator}

/-- What happens to other cells goes on while a cell is computed. -/
theorem after?_computation_of_ne {c d : CellId} (h : c ≠ d) (phase : Phase) (events : List Event)
    (o : Outcome Value) :
    Phase.after? d phase (.started c :: events ++ ending c o) = Phase.after? d phase events := by
  have hother (e : Event) (he : e.cell? = some c) : e.cell? ≠ some d := by
    rw [he]
    exact fun heq => h (Option.some.inj heq)
  have hending (q : Phase) : Phase.after? d q (ending c o) = some q := by
    cases o with
    | value v t => rw [ending, Phase.after?_cons, Phase.next?_of_ne (hother _ rfl)]; rfl
    | error e t => rw [ending, Phase.after?_cons, Phase.next?_of_ne (hother _ rfl)]; rfl
    | exhausted => rfl
  rw [Phase.after?_append, Phase.after?_cons, Phase.next?_of_ne (hother _ rfl)]
  simp [hending]

/-- A waiting cell that is accessed is busy, goes through what happens inside, and ends. -/
theorem after?_computation_self (c : CellId) (events more : List Event) :
    Phase.after? c .waiting (.started c :: events ++ more) =
      (Phase.after? c .busy events).bind fun q => Phase.after? c q more := by
  rw [Phase.after?_append, Phase.after?_cons, Phase.next?_own rfl]
  rfl

/-- A computation that a cell ran is a part of its life. -/
theorem settle_outlives {s : Store} {c : CellId} {events : List Event} {o : Outcome Value}
    {P : Store → Value → Prop} (hc : c < s.cells.size)
    (hpending : (s.cell c).progress = .pending) (hkept : o.Kept (s.setProgress c .running) P)
    (ho : Outlives (s.setProgress c .running) events o) :
    Outlives s (.started c :: events ++ ending c o) (settle c o) := by
  have hwaiting : s.phase c = .waiting := by rw [Store.phase_of_lt hc, hpending]; rfl
  have hbegun : (s.setProgress c .running).phase c = .busy := Store.phase_setProgress_self hc _
  have hsettled {t : Store} {base : Nat} (hgrows : (s.setProgress c .running).Grows base t) :
      t.phase c = .busy ∧ ∀ p, (t.setProgress c p).phase c = .ofProgress p := by
    refine ⟨Store.phase_eq_busy_iff.2 (hgrows.running_start hc), ?_⟩
    exact Store.phase_setProgress_self (Nat.lt_of_lt_of_le hc (by simpa using hgrows.covers.cells))
  cases o with
  | value v t =>
    intro d
    by_cases hd : c = d
    · subst hd
      obtain ⟨hbusy, hphase⟩ := hsettled hkept.2.1
      have hinside := ho c
      rw [hbegun, hbusy] at hinside
      rw [hwaiting, after?_computation_self, hinside, hphase]
      simp [ending, Phase.next?, Event.cell?, Phase.step, Phase.ofProgress]
    · rw [after?_computation_of_ne hd, Store.phase_setProgress_of_ne hd,
        ← Store.phase_setProgress_of_ne hd .running]
      exact ho d
  | error e t =>
    intro d
    by_cases hd : c = d
    · subst hd
      obtain ⟨hbusy, hphase⟩ := hsettled hkept.2
      left
      rw [hwaiting, after?_computation_self, hphase]
      have hinside := ho c
      rw [hbegun, hbusy] at hinside
      obtain hinside | ⟨-, hinside⟩ := hinside <;> rw [hinside] <;>
        simp [ending, Phase.next?, Event.cell?, Phase.step, Phase.ofProgress]
    · rw [after?_computation_of_ne hd, Store.phase_setProgress_of_ne hd,
        ← Store.phase_setProgress_of_ne hd .running]
      exact ho d
  | exhausted => trivial

/-- With any fuel and at any depth, every cell lives through what happens inside a call. -/
theorem carryOut_outlives (hr : ev.registry.Sound) (fuel depth : Nat) (c : Call) (s : Store)
    (hs : s.WellFormed s.records.size) (hc : c.Valid s) :
    Outlives s (ev.history fuel depth c s) (ev.carryOut fuel depth c s) := by
  induction fuel generalizing depth c s with
  | zero => exact (carryOut_zero ev depth s c).symm ▸ trivial
  | succ fuel ih =>
    have hrun {α : Type} {p : Program α} {P : Nat → Store → α → Prop} (depth : Nat)
        (hp : p.Ensures s.records.size s P) :
        Outlives s (p.history (ev.carryOut fuel depth) (ev.history fuel depth) s)
          (p.run (ev.carryOut fuel depth) s) :=
      (hp hs).outlives (carryOut_promised hr fuel depth) (ih depth) hs
    cases c with
    | perform task =>
      have htask : task.Valid s := hc
      cases task with
      | evaluate e scope path =>
        rcases Nat.lt_or_ge depth ev.maxDepth with hdepth | hdepth
        · rw [carryOut_evaluate ev fuel s hdepth, history_evaluate ev fuel s hdepth]
          exact ((hrun _ (taskProgram_givesValue hr htask)).through e.location).entered e.location
        · rw [carryOut_evaluate_deep ev fuel s hdepth, history_evaluate_deep ev fuel s hdepth]
          exact fun d => .inl rfl
      | element initializer index path location =>
        exact ((hrun depth (taskProgram_givesValue hr htask)).through location).entered location
      | constant v => exact fun d => rfl
    | force cell =>
      have hphase (p : Progress) (hp : (s.cell cell).progress = p) : s.phase cell = .ofProgress p :=
        by rw [Store.phase_of_lt hc, hp]
      cases hprogress : (s.cell cell).progress with
      | finished v =>
        rw [carryOut_force_finished ev fuel depth hprogress,
          history_force_finished ev fuel depth hprogress]
        intro d
        by_cases hd : cell = d
        · subst hd
          simp [hphase _ hprogress, Phase.ofProgress, Phase.next?, Event.cell?, Phase.step]
        · simp [Phase.next?, Event.cell?, hd]
      | running =>
        rw [carryOut_force_running ev fuel depth hprogress,
          history_force_running ev fuel depth hprogress]
        intro d
        by_cases hd : cell = d
        · subst hd
          right
          simp [hphase _ hprogress, Phase.ofProgress, Phase.next?, Event.cell?, Phase.step]
        · left
          simp [Phase.next?, Event.cell?, hd]
      | pending =>
        rw [carryOut_force_pending ev fuel depth hprogress,
          history_force_pending ev fuel depth hprogress]
        have hstart := hs.start hprogress
        have htask := hs.task_valid hc
        exact settle_outlives hc hprogress
          (carryOut_promised hr fuel depth (.perform _) _ hstart htask)
          (ih depth (.perform _) _ hstart htask)
    | render spec v => exact hrun depth (Render.value_ensures spec hc)
    | tie work visited => exact hrun depth (Network.tieStep_ensures hc)

end Evaluator

/-- What may be run on a store from outside: a program that refers to what is there, and adds
    members to no records but its own. -/
def Program.Admissible {α : Type} (p : Program α) (s : Store) : Prop :=
  p.Ensures s.records.size s fun _ _ _ => True

theorem Request.admissible {ev : Evaluator} (hev : ev.registry.Sound) {r : Request} {s : Store}
    (hr : r.Valid s) : (r.program ev).Admissible s :=
  program_ensures hev hr

namespace Session

/-- A session goes on from a store, whatever is asked of the evaluator. The history of all that was
    done since then comes with the store that is left. -/
inductive Proceeds (registry : Registry) (s : Store) : List Event → Store → Prop
  | start : Proceeds registry s [] s
  | operation {events : List Event} {t u : Store} (h : Proceeds registry s events t)
      {ev : Evaluator} (hev : ev.registry = registry) {α : Type} {p : Program α}
      (hp : p.Admissible t) {fuel : Nat} (hu : (ev.run fuel p t).store? = some u) :
      Proceeds registry s (events ++ p.history (ev.carryOut fuel 0) (ev.history fuel 0) t) u

/-- The stores that a session comes to, also those inside its operations. -/
inductive Visits (registry : Registry) (s : Store) : Store → Prop
  | inside {events : List Event} {t u : Store} (h : Proceeds registry s events t)
      {ev : Evaluator} (hev : ev.registry = registry) {α : Type} {p : Program α}
      (hp : p.Admissible t) {fuel : Nat}
      (hu : p.Passes (ev.carryOut fuel 0) (ev.Passes fuel 0) t u) : Visits registry s u

namespace Proceeds

variable {registry : Registry} {events : List Event} {s t : Store}

/-- What a session prints is in its history. -/
theorem prints (h : Proceeds registry s events t) :
    t.printed.toList = s.printed.toList ++ printedLines events := by
  induction h with
  | start => exact (List.append_nil _).symm
  | @operation events t u h ev hev α p hp fuel hu ih =>
    have hprints := Program.history_prints (ev.history_prints fuel 0) p t u hu
    rw [hprints, ih, List.append_assoc, ← printedLines_append]

/-- What a session comes to later, it comes to from the start. -/
theorem trans {more : List Event} {u : Store} (h : Proceeds registry s events t)
    (hmore : Proceeds registry t more u) : Proceeds registry s (events ++ more) u := by
  induction hmore with
  | start => rwa [List.append_nil]
  | operation _ hev hp hu ih =>
    rw [← List.append_assoc]
    exact .operation ih hev hp hu

variable (hregistry : registry.Sound)

include hregistry

/-- Nothing is being computed after an operation if nothing was before. -/
theorem keeps (h : Proceeds registry s events t) (hs : s.WellFormed s.records.size) :
    t.WellFormed t.records.size ∧ s.Grows s.records.size t := by
  induction h with
  | start => exact ⟨hs, .refl _ s⟩
  | @operation events t u _ ev hev α p hp fuel hu ih =>
    obtain ⟨hwf, hgrows⟩ := ih
    have hkept : (ev.run fuel p t).Kept t fun _ _ => True :=
      Program.Ensures.run (Evaluator.carryOut_promised (hev ▸ hregistry) fuel 0) hwf hp
    obtain ⟨hwf', hgrows'⟩ := hkept.of_store? hu
    exact ⟨hwf', hgrows.trans hgrows' hgrows.covers.records⟩

/-- Every cell lives through a session. -/
theorem phase_after (h : Proceeds registry s events t) (hs : s.WellFormed s.records.size)
    (hidle : ∀ c, (s.cell c).progress ≠ .running) (c : CellId) :
    Phase.after? c (s.phase c) events = some (t.phase c) := by
  induction h with
  | start => rfl
  | @operation events t u h ev hev α p hp fuel hu ih =>
    obtain ⟨hwf, hgrows⟩ := h.keeps hregistry hs
    have hsound : ev.registry.Sound := hev ▸ hregistry
    have hcalls := Evaluator.carryOut_promised hsound fuel 0
    have hlife := (hp hwf).outlives hcalls (Evaluator.carryOut_outlives hsound fuel 0) hwf
    have hkept : (ev.run fuel p t).Kept t fun _ _ => True := Program.Ensures.run hcalls hwf hp
    have hgrows' := (hkept.of_store? hu).2
    have hsettled : u.phase c ≠ .busy := by
      rw [Ne, Store.phase_eq_busy_iff, hgrows'.running, hgrows.running]
      exact hidle c
    rw [Phase.after?_append, ih]
    rw [Evaluator.run] at hu
    cases hrun : p.run (ev.carryOut fuel 0) t with
    | value a t' =>
      rw [hrun] at hu hlife
      cases hu
      exact hlife c
    | error e t' =>
      rw [hrun] at hu hlife
      cases hu
      obtain hlife | ⟨hbusy, -⟩ := hlife c
      · exact hlife
      · exact absurd hbusy hsettled
    | exhausted =>
      rw [hrun] at hu
      cases hu

end Proceeds

/-- After any operations no cell is being computed, and a cell that has a value keeps it for ever:
    an access gives the value and leaves everything as it is. Whatever was printed was printed by
    the steps of the history; once a computation has given a value, it is not started again, and
    while it was running nobody accessed its cell. -/
theorem cells_live_once {past events : List Event} {s t : Store}
    (hs : Proceeds .standard {} past s) (ht : Proceeds .standard s events t) :
    (∀ c, (t.cell c).progress ≠ .running) ∧
      (∀ c < s.cells.size, ∀ v, (s.cell c).progress = .finished v →
        (∀ u, Visits .standard s u → (u.cell c).progress = .finished v) ∧
          ∀ (ev : Evaluator) (fuel depth : Nat),
            (ev.carryOut (fuel + 1) depth (.force c) t : Outcome Value) = .value v t) ∧
      t.printed.toList = printedLines (past ++ events) ∧
      (∀ c before after, past ++ events = before ++ .finished c :: after →
        .started c ∉ after ∧ .finished c ∉ after) ∧
      ∀ c before during after,
        past ++ events = before ++ .started c :: during ++ .finished c :: after →
          .failed c ∉ during → ∀ e ∈ during, e.cell? ≠ some c := by
  have hwhole := hs.trans ht
  have hempty := Store.wellFormed_empty
  have hlife := hwhole.phase_after Registry.standard_sound hempty (by rintro c ⟨⟩)
  have hwf := (hs.keeps Registry.standard_sound hempty).1
  have hgrows := (ht.keeps Registry.standard_sound hwf).2
  refine ⟨fun c => ?_, fun c hc v hv => ⟨?_, fun ev fuel depth => ?_⟩, ?_, ?_, ?_⟩
  · rw [Ne, (hwhole.keeps Registry.standard_sound hempty).2.running]
    rintro ⟨⟩
  · rintro u ⟨hproceeds, hev, hp, hu⟩
    obtain ⟨hwf', hgrows'⟩ := hproceeds.keeps Registry.standard_sound hwf
    have hsound := hev ▸ Registry.standard_sound
    have hext := (Program.Meets.passes (Evaluator.carryOut_promised hsound _ 0)
      (Evaluator.passes_keeps hsound _ 0) hwf' (hp hwf') hu).2
    exact (hgrows'.toExtends.trans hext hgrows'.covers.records).finished c hc v hv
  · exact Evaluator.carryOut_force_finished ev fuel depth (hgrows.finished c hc v hv)
  · exact hwhole.prints.trans (List.nil_append _)
  · intro c before after heq
    have h := hlife c
    rw [heq] at h
    exact Phase.not_mem_of_finished h
  · intro c before during after heq
    have h := hlife c
    rw [heq] at h
    exact Phase.untouched_of_finished h

/-- A tree with a member that prints, and another name for it. -/
def printingExpr : Expr :=
  .ofMembers [.ofName "a" (.instantiate "PrintAction" (.ofMembers [.ofName "what" (.ofText "hi")])),
    .ofName "b" (.ofName "a")]

/-- The member prints when the other name is accessed, and not again when it is accessed itself. -/
theorem cells_live_once_printing :
    ∃ (past events : List Event) (s t : Store), Proceeds .standard {} past s ∧
      Proceeds .standard s events t ∧ s.cells.size = 2 ∧ t.printed = #["hi"] ∧
        ["hi"] = printedLines (past ++ events) ∧ ∀ c, (t.cell c).progress ≠ .running := by
  let ev : Evaluator := {}
  have hrun : ((ev.run 40 (Request.program ev (.evaluate printingExpr)) {}).store?.bind fun s =>
      (ev.run 40 (Request.program ev (.force 1)) s).store?.bind fun t =>
        (ev.run 40 (Request.program ev (.force 0)) t).store?.map fun u =>
          (s.cells.size, t.cells.size, u.printed)) = some (2, 3, #["hi"]) := by
    decide +kernel
  obtain ⟨s, hs, hrun⟩ := Option.bind_eq_some_iff.1 hrun
  obtain ⟨t, ht, hrun⟩ := Option.bind_eq_some_iff.1 hrun
  obtain ⟨u, hu, hrun⟩ := Option.map_eq_some_iff.1 hrun
  rw [Prod.mk.injEq, Prod.mk.injEq] at hrun
  obtain ⟨hsize, hsize', hprinted⟩ := hrun
  have hsound : ev.registry.Sound := Registry.standard_sound
  have hevaluate : Request.Valid {} (.evaluate printingExpr) := trivial
  have hb : Request.Valid s (.force 1) := show 1 < s.cells.size by rw [hsize]; decide
  have ha : Request.Valid t (.force 0) := show 0 < t.cells.size by rw [hsize']; decide
  have hpast := Proceeds.start.operation rfl (Request.admissible hsound hevaluate) hs
  have hevents := (Proceeds.start.operation rfl (Request.admissible hsound hb) ht).operation rfl
    (Request.admissible hsound ha) hu
  obtain ⟨hidle, -, hprints, -, -⟩ := cells_live_once hpast hevents
  rw [hprinted] at hprints
  exact ⟨_, _, s, u, hpast, hevents, hsize, hprinted, hprints, hidle⟩

end Session

end NetDesc
