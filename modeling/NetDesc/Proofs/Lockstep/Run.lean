import NetDesc.Proofs.Lockstep.World
import NetDesc.Proofs.Run.Reaches
import NetDesc.Proofs.Sharing.Freely

namespace NetDesc

open Outcome (Eventually Tracks)

/-- How the calls of two runs are answered alike, keeping `K` between the stores. What
    corresponds is kept against a store that the first run leads up to, perhaps long after. The
    cells that the first run makes are `mine`, and the calls that it makes are `asked`. -/
structure Coupling (carryOut : (c : Call) → Store → Outcome c.Reply)
    (follow : Nat → (c : Call) → Store → Outcome c.Reply) (final later : Store)
    (mine : CellId → Prop) (asked : Call → Store → Prop) (K : Store → Pairing → Store → Prop) :
    Prop where
  promised : Program.Promised carryOut
  monotone : Program.Monotone follow
  /-- Only cells matter. -/
  same : ∀ {s s' t t' : Store} {p p' : Pairing}, s'.cells = s.cells → t'.cells = t.cells →
    p ≤ p' → p'.cell = p.cell → K s p t → K s' p' t'
  newCell : ∀ {s t : Store} {p : Pairing} {c d : Cell}, mine s.cells.size →
    (∀ v, c.progress = .finished v → (later.cell s.cells.size).progress = .finished v) →
    c.progress.Alike p d.progress → K s p t →
    K { s with cells := s.cells.push c } (p.addCell s.cells.size t.cells.size)
      { t with cells := t.cells.push d }
  answers : ∀ {c : Call} {s u : Store} {reply : c.Reply}, s.WellFormed s.records.size →
    c.Valid s → asked c s → carryOut c s = .value reply u → u.Extends u.records.size final →
    u.Extends u.records.size later → ∀ {W : Pairing} {t : Store} {d : Call}, later.Alike W t →
      c.Alike W d → K s W t →
        ∃ (W' : Pairing) (t' : Store) (reply' : d.Reply), W ≤ W' ∧
          c.RepliesAlike W' d reply reply' ∧ later.Alike W' t' ∧ K u W' t' ∧
            Eventually (fun n => follow n d t) (.value reply' t')

theorem Call.RepliesAlike.upto {p : Pairing} {c d : Call} {v : c.Reply} {w : d.Reply}
    {s t : Store} (h : c.RepliesAlike p d v w) (hv : c.Answered s t v) :
    c.RepliesAlike (p.upto t) d v w := by
  cases c with
  | perform k =>
    cases d with
    | perform l => exact Value.Alike.upto h hv
    | _ => exact h.elim
  | force c =>
    cases d with
    | force d => exact Value.Alike.upto h hv.1
    | _ => exact h.elim
  | _ => cases d <;> exact h.elim

namespace Coupling

variable {carryOut : (c : Call) → Store → Outcome c.Reply}
  {follow : Nat → (c : Call) → Store → Outcome c.Reply} {final later : Store}
  {mine : CellId → Prop} {asked : Call → Store → Prop} {K : Store → Pairing → Store → Prop}
  (h : Coupling carryOut follow final later mine asked K)

include h

theorem perform {W p : Pairing} {s t : Store} {a b : Access} {bound base : Nat}
    (hab : a.Paired base p b) (hmine : a.MakesCell → mine s.cells.size)
    (hlater : (a.perform s).2.Extends bound later) (hK : K s (W.join p) t) :
    K (a.perform s).2 (W.join (a.pairing p s t)) (b.perform t).2 := by
  have hle : W.join p ≤ W.join (a.pairing p s t) := Pairing.join_mono (a.le_pairing p s t)
  cases a with
  | newCell c =>
    cases b with
    | newCell d =>
      have hfinished (v : Value) (hv : c.progress = .finished v) :
          (later.cell s.cells.size).progress = .finished v := by
        refine hlater.finished s.cells.size ?_ v ?_
        · simp [Access.perform]
        · simpa [Access.perform] using hv
      rw [Access.pairing, Pairing.join_addCell]
      exact h.newCell (hmine trivial) hfinished (hab.mono (W.right_le_join p)) hK
    | _ => exact hab.elim
  | _ =>
    cases b <;>
      first
      | exact hab.elim
      | exact h.same (s := s) (t := t) (p := W.join p) rfl rfl hle rfl hK

/-- The second run gets to where the first one gets. -/
theorem reaches {α β : Type} {Q : Nat → Pairing → α → β → Prop} {P : Nat → Store → α → Prop}
    {x x' : Program α} {s s' : Store} (hreaches : x.Reaches carryOut s x' s')
    (hfinal : s'.Extends s'.records.size final) (hlater : s'.Extends s'.records.size later)
    {bound : Nat} (hs : s.WellFormed bound) (hx : x.Meets P bound s)
    (halong : x.Along carryOut mine asked s) {y : Program β} {base : Nat} {p W : Pairing}
    {t : Store} (hlock : x.Lockstep Q y base p s t) (hW : later.Alike W t)
    (hsealed : ∀ r k, W.record r k → k < base) (hK : K s (W.join p) t) :
    ∃ (y' : Program β) (base' : Nat) (p' W' : Pairing) (t' : Store),
      x'.Lockstep Q y' base' p' s' t' ∧ later.Alike W' t' ∧ K s' (W'.join p') t' ∧ W ≤ W' ∧
        Tracks (fun n => y.run (follow n) t) fun n => y'.run (follow n) t' := by
  induction hreaches generalizing y base p W t bound with
  | start x s => exact ⟨y, base, p, W, t, hlock, hW, hK, W.le_refl, .refl _⟩
  | @access a next s s' x' hrest ih =>
    cases y with
    | access b next' =>
      obtain ⟨hab, hnext⟩ := hlock
      obtain ⟨ha, hmeets⟩ := hx
      have hwf := ha.wellFormed hs
      obtain ⟨b', hle, hwf', hgrows, -⟩ := hmeets.reaches h.promised hwf hrest
      have hext : (a.perform s).2.Extends bound later :=
        hgrows.toExtends.trans (hlater.weaken hwf'.base_le) hle
      exact ih hfinal hlater hwf hmeets halong.2 (y := next' (b.perform t).1) hnext
        (hW.perform hsealed hab) hsealed (h.perform hab halong.1 hext hK)
    | _ => exact hlock.elim
  | @reply c next s s' u reply x' hreply hrest ih =>
    cases y with
    | call d next' =>
      obtain ⟨hst, hcd, hcontinue⟩ := hlock
      obtain ⟨hc, hmeets⟩ := hx
      have hkept := h.promised c s hs.seal hc
      rw [hreply] at hkept
      obtain ⟨hwf, hgrows, hanswer⟩ := hkept
      have hmeets' := hmeets u reply hwf hgrows hanswer
      obtain ⟨b', hle, hwf', hgrows', -⟩ := hmeets'.reaches h.promised hwf hrest
      have hu {v : Store} (hv : s'.Extends s'.records.size v) : u.Extends u.records.size v :=
        hgrows'.toExtends.trans (hv.weaken hwf'.base_le) hle
      have hlaterS : s.Extends s.records.size later :=
        hgrows.toExtends.trans (hu hlater) hgrows.covers.records
      obtain ⟨W', t', reply', hWW', hreplies, hW', hK', heventually⟩ :=
        h.answers hs.seal hc halong.1 hreply (hu hfinal) (hu hlater)
          (hW.join (hst.later hlaterS)) (hcd.mono (W.right_le_join p)) hK
      -- what the answer knows more about places of later stores does not concern the program
      have hpq : p ≤ W'.upto u := by
        refine Pairing.le_upto (Pairing.le_trans (W.right_le_join p) hWW') ?_ ?_
        · exact fun hxy => Nat.lt_of_lt_of_le (hst.cell hxy).1 hgrows.covers.cells
        · exact fun hxy => Nat.lt_of_lt_of_le (hst.record hxy).1 hgrows.covers.records
      have hlock' := hcontinue (W'.upto u) u t' reply reply' hpq (hW'.upto hwf (hu hlater))
        (hreplies.upto hanswer)
      have hK'' : K u (W'.join (W'.upto u)) t' := by rwa [Pairing.join_eq_left (W'.upto_le u)]
      obtain ⟨y', base', p', W'', t'', hlock'', hW'', hK'', hle', htracks⟩ :=
        ih hfinal hlater hwf hmeets' (halong.2 reply u hreply) hlock' hW'
          (fun r k hrk => (hW'.record hrk).2.1) hK''
      refine ⟨y', base', p', W'', t'', hlock'', hW'', hK'', ?_, ?_⟩
      · exact Pairing.le_trans (Pairing.le_trans (W.left_le_join p) hWW') hle'
      · exact (h.monotone.tracks_call heventually).trans htracks
    | _ => exact hlock.elim

section Run

variable {α β : Type} {Q : Nat → Pairing → α → β → Prop} {P : Nat → Store → α → Prop}
  {x x' : Program α} {y : Program β} {W : Pairing} {s s' t : Store}
  (hs : s.WellFormed s.records.size) (hx : x.Ensures s.records.size s P)
  (halong : x.Along carryOut mine asked s) (hxy : x.Matches Q y t.records.size (W.upto s))
  (hW : later.Alike W t) (hK : K s W t) (hfinal : s'.Extends s'.records.size final)
  (hlater : s'.Extends s'.records.size later)

include hs hx halong hxy hW hK hfinal hlater

/-- A run starts from what corresponds at that time. -/
theorem follows (hreaches : x.Reaches carryOut s x' s') :
    ∃ (y' : Program β) (base : Nat) (p W' : Pairing) (t' : Store),
      x'.Lockstep (fun b q a a' => W.upto s ≤ q ∧ Q b q a a') y' base p s' t' ∧
        later.Alike W' t' ∧ K s' (W'.join p) t' ∧ W ≤ W' ∧
          Tracks (fun n => y.run (follow n) t) fun n => y'.run (follow n) t' := by
  obtain ⟨b, hle, hwf, hgrows, -⟩ := (hx hs).reaches h.promised hs hreaches
  have hext : s.Extends s.records.size later :=
    hgrows.toExtends.trans (hlater.weaken hwf.base_le) hle
  have hlock := hxy s t (hW.upto hs hext) (Nat.le_refl _)
  have hK' : K s (W.join (W.upto s)) t := by rwa [Pairing.join_eq_left (W.upto_le s)]
  exact h.reaches hreaches hfinal hlater hs (hx hs) halong hlock hW
    (fun r k hrk => (hW.record hrk).2.1) hK'

/-- Results correspond. -/
theorem run_value {a : α} (hrun : x.run carryOut s = .value a s') :
    ∃ (a' : β) (base : Nat) (q W' : Pairing) (t' : Store),
      Q base q a a' ∧ q ≤ W' ∧ W ≤ W' ∧ later.Alike W' t' ∧ K s' W' t' ∧
        Eventually (fun n => y.run (follow n) t) (.value a' t') := by
  obtain ⟨y', base, p, W', t', hlock, hW', hK', hle, htracks⟩ :=
    h.follows hs hx halong hxy hW hK hfinal hlater (Program.reaches_of_run_value hrun)
  cases y' with
  | done a' =>
    obtain ⟨hst, -, -, hQ⟩ := hlock
    refine ⟨a', base, p, W'.join p, t', hQ, W'.right_le_join p, ?_, ?_, hK', ?_⟩
    · exact Pairing.le_trans hle (W'.left_le_join p)
    · exact hW'.join (hst.later hlater)
    · exact htracks.outcome ⟨0, fun _ _ => rfl⟩
  | _ => exact hlock.elim

/-- Both programs raise the same error. -/
theorem run_raise {e : EvalError} (hreaches : x.Reaches carryOut s (.raise e) s') :
    e.IsRaised ∧ ∃ t', Eventually (fun n => y.run (follow n) t) (.error e t') := by
  obtain ⟨y', base, p, W', t', hlock, -, -, -, htracks⟩ :=
    h.follows hs hx halong hxy hW hK hfinal hlater hreaches
  cases y' with
  | raise f =>
    obtain ⟨rfl, he⟩ := hlock
    exact ⟨he, t', htracks.outcome ⟨0, fun _ _ => rfl⟩⟩
  | _ => exact hlock.elim

/-- Where one run makes a call the other one makes a call that is alike. -/
theorem run_call {c : Call} {next : c.Reply → Program α}
    (hreaches : x.Reaches carryOut s (.call c next) s') :
    ∃ (d : Call) (next' : d.Reply → Program β) (W' : Pairing) (t' : Store),
      W ≤ W' ∧ later.Alike W' t' ∧ c.Alike W' d ∧ K s' W' t' ∧
        Tracks (fun n => y.run (follow n) t) fun n => (Program.call d next').run (follow n) t' := by
  obtain ⟨y', base, p, W', t', hlock, hW', hK', hle, htracks⟩ :=
    h.follows hs hx halong hxy hW hK hfinal hlater hreaches
  cases y' with
  | call d next' =>
    obtain ⟨hst, hcd, -⟩ := hlock
    refine ⟨d, next', W'.join p, t', ?_, ?_, hcd.mono (W'.right_le_join p), hK', htracks⟩
    · exact Pairing.le_trans hle (W'.left_le_join p)
    · exact hW'.join (hst.later hlater)
  | _ => exact hlock.elim

end Run

end Coupling

end NetDesc
