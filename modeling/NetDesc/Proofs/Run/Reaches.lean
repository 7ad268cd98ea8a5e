import NetDesc.Proofs.Run.Keeps

namespace NetDesc

/-- Whether a step makes a cell. -/
def Access.MakesCell : Access → Prop
  | newCell _ => True
  | _ => False

namespace Program

variable {α : Type} {carryOut : (c : Call) → Store → Outcome c.Reply}

/-- The cells that a run makes are `mine`, and the calls that it makes are `asked`. -/
def Along (carryOut : (c : Call) → Store → Outcome c.Reply) (mine : CellId → Prop)
    (asked : Call → Store → Prop) : Program α → Store → Prop
  | done _, _ => True
  | raise _, _ => True
  | access a next, s =>
    (a.MakesCell → mine s.cells.size) ∧
      (next (a.perform s).1).Along carryOut mine asked (a.perform s).2
  | call c next, s =>
    asked c s ∧ ∀ (reply : c.Reply) (t : Store), carryOut c s = .value reply t →
      (next reply).Along carryOut mine asked t

/-- The run of a program comes to another program, which is what is left of it. Wherever a run
    ends, it got there that way: at a result, at an error that the program raises itself, or at a
    call that was not answered. -/
inductive Reaches (carryOut : (c : Call) → Store → Outcome c.Reply) :
    Program α → Store → Program α → Store → Prop
  | start (x : Program α) (s : Store) : Reaches carryOut x s x s
  | access {a : Access} {next : a.Reply → Program α} {s t : Store} {y : Program α}
      (h : Reaches carryOut (next (a.perform s).1) (a.perform s).2 y t) :
      Reaches carryOut (access a next) s y t
  | reply {c : Call} {next : c.Reply → Program α} {s t u : Store} {reply : c.Reply}
      {y : Program α} (hreply : carryOut c s = .value reply u)
      (h : Reaches carryOut (next reply) u y t) : Reaches carryOut (call c next) s y t

/-- A run ends as what is left of its program does. -/
theorem Reaches.run_eq {x y : Program α} {s t : Store} (h : Reaches carryOut x s y t) :
    x.run carryOut s = y.run carryOut t := by
  induction h with
  | start x s => rfl
  | access _ ih => exact ih
  | reply hreply _ ih =>
    rw [run, hreply]
    exact ih

/-- A program in two parts raises an error in the first one, or in the second one after the first
    one has given a result. -/
theorem reaches_raise_of_bind {β : Type} {x : Program α} {f : α → Program β} {e : EvalError}
    {s t : Store} (h : Reaches carryOut (x >>= f) s (raise e) t) :
    Reaches carryOut x s (raise e) t ∨
      ∃ a u, x.run carryOut s = .value a u ∧ Reaches carryOut (f a) u (raise e) t := by
  change Reaches carryOut (x.bind f) s (raise e) t at h
  induction x generalizing s with
  | done a => exact .inr ⟨a, s, rfl, h⟩
  | raise e' =>
    cases h
    exact .inl (.start _ _)
  | access a next ih =>
    cases h with
    | access h => exact (ih _ h).imp .access id
  | call c next ih =>
    cases h with
    | reply hreply h =>
      rcases ih _ h with h | ⟨a, u, hrun, h⟩
      · exact .inl (.reply hreply h)
      · exact .inr ⟨a, u, by rw [run, hreply]; exact hrun, h⟩

section Ends

variable {x : Program α} {s t : Store}

theorem reaches_of_run_value {a : α} (h : x.run carryOut s = .value a t) :
    Reaches carryOut x s (done a) t := by
  induction x generalizing s with
  | done result =>
    cases h
    exact .start _ _
  | raise e => cases h
  | access a next ih => exact .access (ih _ h)
  | call c next ih =>
    rw [Program.run] at h
    cases hreply : carryOut c s with
    | value reply u =>
      rw [hreply] at h
      exact .reply hreply (ih reply h)
    | error e u =>
      rw [hreply] at h
      cases h
    | exhausted =>
      rw [hreply] at h
      cases h

/-- A run fails where the program raises an error, or where a call does. -/
theorem reaches_of_run_error {e : EvalError} (h : x.run carryOut s = .error e t) :
    Reaches carryOut x s (raise e) t ∨
      ∃ (c : Call) (next : c.Reply → Program α) (u : Store),
        Reaches carryOut x s (call c next) u ∧ carryOut c u = .error e t := by
  induction x generalizing s with
  | done result => cases h
  | raise e =>
    cases h
    exact .inl (.start _ _)
  | access a next ih =>
    rcases ih _ h with h | ⟨c, next', u, h, hc⟩
    · exact .inl (.access h)
    · exact .inr ⟨c, next', u, .access h, hc⟩
  | call c next ih =>
    rw [Program.run] at h
    cases hreply : carryOut c s with
    | value reply u =>
      rw [hreply] at h
      rcases ih reply h with h | ⟨d, next', v, h, hd⟩
      · exact .inl (.reply hreply h)
      · exact .inr ⟨d, next', v, .reply hreply h, hd⟩
    | error e' u =>
      rw [hreply] at h
      cases h
      exact .inr ⟨c, next, s, .start _ _, hreply⟩
    | exhausted =>
      rw [hreply] at h
      cases h

/-- A run is given up at a call that is. -/
theorem reaches_of_run_exhausted (h : x.run carryOut s = .exhausted) :
    ∃ (c : Call) (next : c.Reply → Program α) (u : Store),
      Reaches carryOut x s (call c next) u ∧ carryOut c u = .exhausted := by
  induction x generalizing s with
  | done result => cases h
  | raise e => cases h
  | access a next ih =>
    obtain ⟨c, next', u, h, hc⟩ := ih _ h
    exact ⟨c, next', u, .access h, hc⟩
  | call c next ih =>
    rw [Program.run] at h
    cases hreply : carryOut c s with
    | value reply u =>
      rw [hreply] at h
      obtain ⟨d, next', v, h, hd⟩ := ih reply h
      exact ⟨d, next', v, .reply hreply h, hd⟩
    | error e u =>
      rw [hreply] at h
      cases h
    | exhausted => exact ⟨c, next, s, .start _ _, hreply⟩

end Ends

/-- What is left of a program that meets its promises meets them too. -/
theorem Meets.reaches {P : Nat → Store → α → Prop} {x y : Program α} {base : Nat} {s t : Store}
    (hcalls : Promised carryOut) (hs : s.WellFormed base) (hx : x.Meets P base s)
    (h : Reaches carryOut x s y t) :
    ∃ b, base ≤ b ∧ t.WellFormed b ∧ s.Grows base t ∧ y.Meets P b t := by
  induction h generalizing base with
  | start x s => exact ⟨base, Nat.le_refl base, hs, .refl base s, hx⟩
  | access _ ih =>
    obtain ⟨ha, hnext⟩ := hx
    obtain ⟨b, hle, ht, hgrows, hy⟩ := ih (ha.wellFormed hs) hnext
    exact ⟨b, hle, ht, (ha.grows hs).trans hgrows (Nat.le_refl base), hy⟩
  | @reply c next s t u reply y hreply _ ih =>
    have hcall := hcalls c s hs.seal hx.1
    rw [hreply] at hcall
    obtain ⟨hwf, hgrows, hanswer⟩ := hcall
    obtain ⟨b, hle, ht, hgrows', hy⟩ := ih hwf (hx.2 u reply hwf hgrows hanswer)
    have hsealed : base ≤ u.records.size := Nat.le_trans hs.base_le hgrows.covers.records
    exact ⟨b, Nat.le_trans hsealed hle, ht, (hgrows.weaken hs.base_le).trans hgrows' hsealed, hy⟩

theorem Along.reaches {mine : CellId → Prop} {asked : Call → Store → Prop} {x y : Program α}
    {s t : Store} (hx : x.Along carryOut mine asked s) (h : Reaches carryOut x s y t) :
    y.Along carryOut mine asked t := by
  induction h with
  | start x s => exact hx
  | access _ ih => exact ih hx.2
  | reply hreply _ ih => exact ih (hx.2 _ _ hreply)

/-- Nothing is asked of any run. -/
theorem along_trivial (x : Program α) (s : Store) :
    x.Along carryOut (fun _ => True) (fun _ _ => True) s := by
  induction x generalizing s with
  | done result => trivial
  | raise e => trivial
  | access a next ih => exact ⟨fun _ => trivial, ih _ _⟩
  | call c next ih => exact ⟨trivial, fun reply t _ => ih reply t⟩

/-- What steps and calls preserve, given the number of records that are sealed. -/
structure Invariant (carryOut : (c : Call) → Store → Outcome c.Reply)
    (asked : Call → Store → Prop) (J : Nat → Store → Prop) : Prop where
  sealed : ∀ {base : Nat} {s : Store}, s.WellFormed base → J base s → J s.records.size s
  access : ∀ {base : Nat} {s : Store} {a : Access}, s.WellFormed base → a.Allowed base s →
    J base s → J base (a.perform s).2
  call : ∀ {c : Call} {s t : Store}, s.WellFormed s.records.size → c.Valid s → asked c s →
    J s.records.size s → (carryOut c s).store? = some t → J t.records.size t

namespace Invariant

variable {mine : CellId → Prop} {asked : Call → Store → Prop} {J : Nat → Store → Prop}
  (h : Invariant carryOut asked J) (hcalls : Promised carryOut) {P : Nat → Store → α → Prop}
  {x : Program α} {base : Nat} {s : Store}

include h hcalls

/-- The invariant holds when a run has ended, however it did. -/
theorem run (hs : s.WellFormed base) (hx : x.Meets P base s)
    (halong : x.Along carryOut mine asked s) (hJ : J base s) {t : Store}
    (ht : (x.run carryOut s).store? = some t) : J t.records.size t := by
  induction x generalizing s base with
  | done result =>
    cases ht
    exact h.sealed hs hJ
  | raise e =>
    cases ht
    exact h.sealed hs hJ
  | access a next ih =>
    exact ih _ (hx.1.wellFormed hs) hx.2 halong.2 (h.access hs hx.1 hJ) ht
  | call c next ih =>
    have hkept := hcalls c s hs.seal hx.1
    have hJcall : ∀ u, (carryOut c s).store? = some u → J u.records.size u := fun u =>
      h.call hs.seal hx.1 halong.1 (h.sealed hs hJ)
    rw [Program.run] at ht
    cases hreply : carryOut c s with
    | value reply u =>
      rw [hreply] at hkept hJcall ht
      obtain ⟨hwf, hgrows, hanswer⟩ := hkept
      exact ih reply hwf (hx.2 u reply hwf hgrows hanswer) (halong.2 reply u hreply)
        (hJcall u rfl) ht
    | error e u =>
      rw [hreply] at hJcall ht
      exact hJcall t ht
    | exhausted =>
      rw [hreply] at ht
      cases ht

/-- The invariant holds wherever a call is made. -/
theorem along (hs : s.WellFormed base) (hx : x.Meets P base s)
    (halong : x.Along carryOut mine asked s) (hJ : J base s) :
    x.Along carryOut mine (fun c s => asked c s ∧ J s.records.size s) s := by
  induction x generalizing s base with
  | done result => trivial
  | raise e => trivial
  | access a next ih =>
    exact ⟨halong.1, ih _ (hx.1.wellFormed hs) hx.2 halong.2 (h.access hs hx.1 hJ)⟩
  | call c next ih =>
    refine ⟨⟨halong.1, h.sealed hs hJ⟩, fun reply u hreply => ?_⟩
    have hkept := hcalls c s hs.seal hx.1
    rw [hreply] at hkept
    obtain ⟨hwf, hgrows, hanswer⟩ := hkept
    refine ih reply hwf (hx.2 u reply hwf hgrows hanswer) (halong.2 reply u hreply) ?_
    exact h.call hs.seal hx.1 halong.1 (h.sealed hs hJ) (by rw [hreply]; rfl)

end Invariant

end Program

/-- A call that is about to be carried out. -/
structure Moment where
  fuel : Nat
  depth : Nat
  call : Call
  store : Store

namespace Evaluator

/-- Carrying out the first call, the evaluator carries out the second one itself. -/
inductive LeadsTo (ev : Evaluator) : Moment → Moment → Prop
  | evaluate {fuel depth : Nat} {e : Expr} {scope : RecordId} {path : String} {s t : Store}
      {c : Call} {next : c.Reply → Program Value} (hdepth : depth < ev.maxDepth)
      (h : Program.Reaches (ev.carryOut fuel (depth + 1))
        (ev.taskProgram (.evaluate e scope path)) s (.call c next) t) :
      LeadsTo ev ⟨fuel + 1, depth, .perform (.evaluate e scope path), s⟩ ⟨fuel, depth + 1, c, t⟩
  | element {fuel depth : Nat} {initializer : Function} {index : Value} {path : String}
      {location : Location} {s t : Store} {c : Call} {next : c.Reply → Program Value}
      (h : Program.Reaches (ev.carryOut fuel depth)
        (ev.taskProgram (.element initializer index path location)) s (.call c next) t) :
      LeadsTo ev ⟨fuel + 1, depth, .perform (.element initializer index path location), s⟩
        ⟨fuel, depth, c, t⟩
  | force {fuel depth : Nat} {cell : CellId} {s : Store}
      (hpending : (s.cell cell).progress = .pending) :
      LeadsTo ev ⟨fuel + 1, depth, .force cell, s⟩
        ⟨fuel, depth, .perform (s.cell cell).task, s.setProgress cell .running⟩
  | render {fuel depth : Nat} {spec : FormatSpec} {v : Value} {s t : Store} {c : Call}
      {next : c.Reply → Program String}
      (h : Program.Reaches (ev.carryOut fuel depth) (Render.value spec v) s (.call c next) t) :
      LeadsTo ev ⟨fuel + 1, depth, .render spec v, s⟩ ⟨fuel, depth, c, t⟩
  | tie {fuel depth : Nat} {work visited : List Object} {s t : Store} {c : Call}
      {next : c.Reply → Program (List Object)}
      (h : Program.Reaches (ev.carryOut fuel depth) (Network.tieStep work visited) s
        (.call c next) t) :
      LeadsTo ev ⟨fuel + 1, depth, .tie work visited, s⟩ ⟨fuel, depth, c, t⟩

end Evaluator

end NetDesc
