import Mathlib.Logic.Function.Basic
import NetDesc.Proofs.Run.Calls
import NetDesc.Proofs.Run.Reaches

namespace NetDesc

/-- Whether two labellings agree on the first cells. -/
def AgreeBelow (n : Nat) (own own' : CellId → Option CellId) : Prop :=
  ∀ c < n, own' c = own c

theorem AgreeBelow.mono {n m : Nat} {own own' : CellId → Option CellId}
    (h : AgreeBelow n own own') (hmn : m ≤ n) : AgreeBelow m own own' :=
  fun c hc => h c (Nat.lt_of_lt_of_le hc hmn)

theorem AgreeBelow.trans {n : Nat} {own own' own'' : CellId → Option CellId}
    (h : AgreeBelow n own own') (h' : AgreeBelow n own' own'') : AgreeBelow n own own'' :=
  fun c hc => (h' c hc).trans (h c hc)

namespace Access

variable (a : Access) (s : Store)

/-- No access removes a cell. -/
theorem cells_size_le : s.cells.size ≤ (a.perform s).2.cells.size := by
  cases a with
  | newCell c => simp [perform]
  | rename o name => cases o <;> exact Nat.le_refl _
  | _ => exact Nat.le_refl _

variable {a} in
theorem MakesCell.cells_size_lt (h : a.MakesCell) :
    s.cells.size < (a.perform s).2.cells.size := by
  cases a with
  | newCell c => simp [perform]
  | _ => exact h.elim

end Access

namespace Program

variable {α : Type} {carryOut : (c : Call) → Store → Outcome c.Reply}

/-- Calls lose no cells. -/
def KeepsCells (carryOut : (c : Call) → Store → Outcome c.Reply) : Prop :=
  ∀ (c : Call) (s t : Store), (carryOut c s).store? = some t → s.cells.size ≤ t.cells.size

theorem KeepsCells.run (h : KeepsCells carryOut) {x : Program α} {s t : Store}
    (ht : (x.run carryOut s).store? = some t) : s.cells.size ≤ t.cells.size := by
  induction x generalizing s with
  | done result =>
    cases ht
    exact Nat.le_refl _
  | raise e =>
    cases ht
    exact Nat.le_refl _
  | access a next ih => exact Nat.le_trans (a.cells_size_le s) (ih _ ht)
  | call c next ih =>
    have hcall := h c s
    rw [Program.run] at ht
    cases hreply : carryOut c s with
    | value reply u =>
      rw [hreply] at ht hcall
      exact Nat.le_trans (hcall u rfl) (ih reply ht)
    | error e u =>
      rw [hreply] at ht hcall
      exact hcall t ht
    | exhausted =>
      rw [hreply] at ht
      cases ht

/-- How calls are labelled: a labelling says something of the cells that a call makes, and there
    always is one. Stores do not record who owns a cell, and labellings of one run after another
    are put together. -/
structure Labelled (carryOut : (c : Call) → Store → Outcome c.Reply)
    (A : (CellId → Option CellId) → Call → Store → Prop) : Prop where
  keeps : KeepsCells carryOut
  congr : ∀ {own own' : CellId → Option CellId} {c : Call} {s t : Store}, A own c s →
    (carryOut c s).store? = some t → AgreeBelow t.cells.size own own' → A own' c s
  exists_labelling : ∀ (own : CellId → Option CellId) (c : Call) (s : Store),
    ∃ own', AgreeBelow s.cells.size own own' ∧ A own' c s

namespace Labelled

variable {A : (CellId → Option CellId) → Call → Store → Prop} (h : Labelled carryOut A)
  {owner : Option CellId}

include h

theorem run_congr {x : Program α} {own own' : CellId → Option CellId} {s t : Store}
    (hx : x.Along carryOut (fun c => own c = owner) (A own) s)
    (ht : (x.run carryOut s).store? = some t) (hagree : AgreeBelow t.cells.size own own') :
    x.Along carryOut (fun c => own' c = owner) (A own') s := by
  induction x generalizing s with
  | done result => trivial
  | raise e => trivial
  | access a next ih =>
    refine ⟨fun hmakes => ?_, ih _ hx.2 ht⟩
    have hsize : s.cells.size < t.cells.size :=
      Nat.lt_of_lt_of_le (hmakes.cells_size_lt s) (h.keeps.run ht)
    exact (hagree _ hsize).trans (hx.1 hmakes)
  | call c next ih =>
    rw [Program.run] at ht
    cases hreply : carryOut c s with
    | value reply u =>
      rw [hreply] at ht
      have hu : u.cells.size ≤ t.cells.size := h.keeps.run ht
      refine ⟨h.congr hx.1 (by rw [hreply]; rfl) (hagree.mono hu), fun reply' u' hreply' => ?_⟩
      rw [hreply] at hreply'
      cases hreply'
      exact ih reply (hx.2 reply u hreply) ht
    | error e u =>
      rw [hreply] at ht
      cases ht
      refine ⟨h.congr hx.1 (by rw [hreply]; rfl) hagree, fun reply' u' hreply' => ?_⟩
      rw [hreply] at hreply'
      cases hreply'
    | exhausted =>
      rw [hreply] at ht
      cases ht

/-- A labelling of the cells that are there can be continued to those that the run of a program
    makes. The calls are labelled one after another, and no label is changed once it is given. -/
theorem exists_run (owner : Option CellId) (own : CellId → Option CellId) (x : Program α)
    (s : Store) : ∃ own', AgreeBelow s.cells.size own own' ∧
      x.Along carryOut (fun c => own' c = owner) (A own') s := by
  induction x generalizing own s with
  | done result => exact ⟨own, fun _ _ => rfl, trivial⟩
  | raise e => exact ⟨own, fun _ _ => rfl, trivial⟩
  | access a next ih =>
    obtain ⟨own', hagree, hnext⟩ :=
      ih (a.perform s).1 (Function.update own s.cells.size owner) (a.perform s).2
    refine ⟨own', fun c hc => ?_, fun hmakes => ?_, hnext⟩
    · rw [hagree c (Nat.lt_of_lt_of_le hc (a.cells_size_le s))]
      exact Function.update_of_ne (Nat.ne_of_lt hc) _ _
    · exact (hagree _ (hmakes.cells_size_lt s)).trans (Function.update_self _ _ _)
  | call c next ih =>
    obtain ⟨own₁, hagree₁, hcall⟩ := h.exists_labelling own c s
    cases hreply : carryOut c s with
    | value reply u =>
      obtain ⟨own', hagree, hnext⟩ := ih reply own₁ u
      have hsu : s.cells.size ≤ u.cells.size := h.keeps c s u (by rw [hreply]; rfl)
      refine ⟨own', hagree₁.trans (hagree.mono hsu), ?_, fun reply' u' hreply' => ?_⟩
      · exact h.congr hcall (by rw [hreply]; rfl) hagree
      · rw [hreply] at hreply'
        cases hreply'
        exact hnext
    | error e u =>
      refine ⟨own₁, hagree₁, hcall, fun reply' u' hreply' => ?_⟩
      rw [hreply] at hreply'
      cases hreply'
    | exhausted =>
      refine ⟨own₁, hagree₁, hcall, fun reply' u' hreply' => ?_⟩
      rw [hreply] at hreply'
      cases hreply'

end Labelled

end Program

namespace Evaluator

variable {ev : Evaluator}

/-- The cells that a call makes while `owner` is computed are labelled with their owners. -/
def Owns (ev : Evaluator) (own : CellId → Option CellId) :
    (fuel depth : Nat) → Option CellId → Call → Store → Prop
  | 0, _, _, _, _ => True
  | fuel + 1, depth, owner, .perform (.evaluate e scope path), s =>
    depth < ev.maxDepth → (ev.taskProgram (.evaluate e scope path)).Along
      (ev.carryOut fuel (depth + 1)) (fun c => own c = owner) (ev.Owns own fuel (depth + 1) owner) s
  | fuel + 1, depth, owner, .perform (.element initializer index path location), s =>
    (ev.taskProgram (.element initializer index path location)).Along (ev.carryOut fuel depth)
      (fun c => own c = owner) (ev.Owns own fuel depth owner) s
  | _ + 1, _, _, .perform (.constant _), _ => True
  | fuel + 1, depth, _, .force cell, s =>
    (s.cell cell).progress = .pending → ev.Owns own fuel depth (some cell)
      (.perform (s.cell cell).task) (s.setProgress cell .running)
  | fuel + 1, depth, owner, .render spec v, s =>
    (Render.value spec v).Along (ev.carryOut fuel depth) (fun c => own c = owner)
      (ev.Owns own fuel depth owner) s
  | fuel + 1, depth, owner, .tie work visited, s =>
    (Network.tieStep work visited).Along (ev.carryOut fuel depth) (fun c => own c = owner)
      (ev.Owns own fuel depth owner) s

theorem carryOut_keepsCells (fuel depth : Nat) : Program.KeepsCells (ev.carryOut fuel depth) := by
  induction fuel generalizing depth with
  | zero =>
    intro c s t ht
    rw [carryOut_zero] at ht
    cases ht
  | succ fuel ih =>
    intro c s t ht
    cases c with
    | perform k =>
      cases k with
      | evaluate e scope path =>
        rcases Nat.lt_or_ge depth ev.maxDepth with hdepth | hdepth
        · rw [carryOut_evaluate ev fuel s hdepth] at ht
          exact (ih (depth + 1)).run ((Outcome.store?_through _ _).symm.trans ht)
        · rw [carryOut_evaluate_deep ev fuel s hdepth] at ht
          cases ht
          exact Nat.le_refl _
      | element initializer index path location =>
        exact (ih depth).run ((Outcome.store?_through _ _).symm.trans ht)
      | constant v =>
        cases ht
        exact Nat.le_refl _
    | force z =>
      cases hprogress : (s.cell z).progress with
      | finished v =>
        rw [carryOut_force_finished ev fuel depth hprogress] at ht
        cases ht
        exact Nat.le_refl _
      | running =>
        rw [carryOut_force_running ev fuel depth hprogress] at ht
        cases ht
        exact Nat.le_refl _
      | pending =>
        rw [carryOut_force_pending ev fuel depth hprogress] at ht
        obtain ⟨u, p, hu, rfl⟩ := settle_store? ht
        simpa using ih depth (.perform (s.cell z).task) _ u hu
    | render spec v => exact (ih depth).run ht
    | tie work visited => exact (ih depth).run ht

/-- Every call can be labelled with owners. -/
theorem owns_labelled (fuel depth : Nat) (owner : Option CellId) :
    Program.Labelled (ev.carryOut fuel depth) fun own => ev.Owns own fuel depth owner := by
  induction fuel generalizing depth owner with
  | zero => exact ⟨carryOut_keepsCells 0 depth, fun _ _ _ => trivial, fun own _ _ =>
      ⟨own, fun _ _ => rfl, trivial⟩⟩
  | succ fuel ih =>
    refine ⟨carryOut_keepsCells (fuel + 1) depth, ?_, ?_⟩
    · intro own own' c s t hc ht hagree
      have hrun {α : Type} {x : Program α} {d : Nat} {t : Store}
          (hx : x.Along (ev.carryOut fuel d) (fun c => own c = owner)
            (ev.Owns own fuel d owner) s) (ht : (x.run (ev.carryOut fuel d) s).store? = some t)
          (hagree : AgreeBelow t.cells.size own own') :
          x.Along (ev.carryOut fuel d) (fun c => own' c = owner) (ev.Owns own' fuel d owner) s :=
        (ih d owner).run_congr hx ht hagree
      cases c with
      | perform k =>
        cases k with
        | evaluate e scope path =>
          intro hdepth
          rw [carryOut_evaluate ev fuel s hdepth] at ht
          exact hrun (hc hdepth) ((Outcome.store?_through _ _).symm.trans ht) hagree
        | element initializer index path location =>
          exact hrun hc ((Outcome.store?_through _ _).symm.trans ht) hagree
        | constant v => trivial
      | force z =>
        intro hpending
        rw [carryOut_force_pending ev fuel depth hpending] at ht
        obtain ⟨u, p, hu, rfl⟩ := settle_store? ht
        exact (ih depth (some z)).congr (hc hpending) hu (by simpa using hagree)
      | render spec v => exact hrun hc ht hagree
      | tie work visited => exact hrun hc ht hagree
    · intro own c s
      cases c with
      | perform k =>
        cases k with
        | evaluate e scope path =>
          obtain ⟨own', hagree, halong⟩ := (ih (depth + 1) owner).exists_run owner own
            (ev.taskProgram (.evaluate e scope path)) s
          exact ⟨own', hagree, fun _ => halong⟩
        | element initializer index path location =>
          exact (ih depth owner).exists_run owner own
            (ev.taskProgram (.element initializer index path location)) s
        | constant v => exact ⟨own, fun _ _ => rfl, trivial⟩
      | force z =>
        obtain ⟨own', hagree, hown⟩ := (ih depth (some z)).exists_labelling own
          (.perform (s.cell z).task) (s.setProgress z .running)
        exact ⟨own', by simpa using hagree, fun _ => hown⟩
      | render spec v => exact (ih depth owner).exists_run owner own (Render.value spec v) s
      | tie work visited =>
        exact (ih depth owner).exists_run owner own (Network.tieStep work visited) s

end Evaluator

end NetDesc
