import NetDesc.Proofs.Sharing.Adequacy
import NetDesc.Proofs.Sharing.Cycles
import NetDesc.Proofs.Sharing.Termination

namespace NetDesc

open Outcome (Eventually)

namespace Outcome

/-- What one can tell of two outcomes without looking into any place. -/
def Same : Outcome Value → Outcome Value → Prop
  | value v _, value w _ => v.Same w
  | error e _, error f _ => e = f
  | _, _ => False

/-- Whether evaluation stopped because expressions are nested too deep. -/
def IsLimit {α : Type} : Outcome α → Prop
  | error e _ => e.IsLimit
  | _ => False

namespace Same

variable {o o' o'' : Outcome Value}

theorem symm (h : o.Same o') : o'.Same o := by
  cases o <;> cases o' <;> first | exact h.elim | skip
  · exact Value.Same.symm h
  · exact Eq.symm h

theorem trans (h : o.Same o') (h' : o'.Same o'') : o.Same o'' := by
  cases o <;> cases o' <;> first | exact h.elim | skip
  · cases o'' <;> first | exact h'.elim | exact Value.Same.trans h h'
  · cases o'' <;> first | exact h'.elim | exact Eq.trans h h'

end Same

end Outcome

namespace Evaluator

/-- Accesses fields of a record one after another, whether that fails or not, and gives the outcome
    of accessing one more. -/
def fieldAfter (ev : Evaluator) (fuel : Nat) (r : RecordId) (name : String) :
    (history : List String) → Store → Outcome Value
  | [], s => ev.run fuel (Program.field r name) s
  | first :: rest, s =>
    match (ev.run fuel (Program.field r first) s).store? with
    | some t => ev.fieldAfter fuel r name rest t
    | none => .exhausted

/-- Evaluates a whole tree and accesses a field of the record that it is, without limits. -/
def fieldFreely (ev : Evaluator) (root : Expr) (name : String) (fuel : Nat) : Outcome Value :=
  ((ev.wholeTree root).run (ev.carryOutFreely .byNeed fuel) {}).bind fun v s =>
    match v.payload with
    | .record k => (Program.field k name).run (ev.carryOutFreely .byNeed fuel) s
    | _ => .exhausted

/-- What has been computed of a tree, apart from the cells before `old`, is what a single
    evaluation without limits would compute. The tree is the record `r`. Accesses leave cells
    finished or put back, and this stays so. -/
structure Explored (ev : Evaluator) (old : Nat) (own : CellId → Option CellId) (root : Expr)
    (r : RecordId) (s : Store) : Prop where
  wellFormed : s.WellFormed s.records.size
  record : r < s.records.size
  old_le : old ≤ s.cells.size
  settled : ∀ c, old ≤ c → (s.cell c).progress ≠ .running
  faithful : ev.Faithful old s.records.size s
  replayable : ev.Replayable old own s.records.size s
  tree : ∀ later, s.Extends s.records.size later → ∃ W t w k, later.Alike W t ∧
    Coupled old own later W t ∧ (∀ d, (t.cell d).progress ≠ .running) ∧
      (∀ {c d}, W.cell c d → own c = none → c < s.cells.size) ∧ W.record r k ∧
        w.payload = .record k ∧
          Eventually (fun n => (ev.wholeTree root).run (ev.carryOutFreely .byNeed n) {})
            (.value w t)

/-- Accesses to fields, one after another, are labelled with owners. -/
def OwnsFields (ev : Evaluator) (own : CellId → Option CellId) (fuel : Nat) (r : RecordId) :
    List String → Store → Prop
  | [], _ => True
  | name :: rest, s =>
    (Program.field r name).Along (ev.carryOut fuel 0) (fun c => own c = none)
      (ev.Owns own fuel 0 none) s ∧
        ∀ t, (ev.run fuel (Program.field r name) s).store? = some t →
          ev.OwnsFields own fuel r rest t

variable {ev : Evaluator} {old : Nat} {own : CellId → Option CellId} {root : Expr} {r : RecordId}
  {s : Store}

theorem fieldFreely_of_tree {w : Value} {t : Store} {k : RecordId} {name : String}
    {o : Outcome Value} (htree : Eventually
      (fun n => (ev.wholeTree root).run (ev.carryOutFreely .byNeed n) {}) (.value w t))
    (hw : w.payload = .record k)
    (h : Eventually (fun n => (Program.field k name).run (ev.carryOutFreely .byNeed n) t) o) :
    Eventually (ev.fieldFreely root name) o := by
  have hmonotone : ∀ n m, n ≤ m → (ev.wholeTree root).run (ev.carryOutFreely .byNeed n) {} ≤
      (ev.wholeTree root).run (ev.carryOutFreely .byNeed m) {} := fun n m hnm =>
    Program.run_le (ev.carryOutFreely_monotone .byNeed n m hnm) _ _
  refine (htree.tracks_bind hmonotone _).outcome ?_
  simpa only [hw] using h

/-- Accesses can be labelled with owners. -/
theorem exists_ownsFields (ev : Evaluator) (r : RecordId) (fuel : Nat) (names : List String)
    (own : CellId → Option CellId) (s : Store) :
    ∃ own', AgreeBelow s.cells.size own own' ∧ ev.OwnsFields own' fuel r names s := by
  induction names generalizing own s with
  | nil => exact ⟨own, fun _ _ => rfl, trivial⟩
  | cons name rest ih =>
    have hlabelled := ev.owns_labelled fuel 0 none
    obtain ⟨own₁, hagree₁, halong₁⟩ :=
      hlabelled.exists_run none own (Program.field r name) s
    cases hstore : (ev.run fuel (Program.field r name) s).store? with
    | none =>
      refine ⟨own₁, hagree₁, halong₁, fun t ht => ?_⟩
      rw [hstore] at ht
      cases ht
    | some t =>
      obtain ⟨own', hagree, hrest⟩ := ih own₁ t
      have hsize : s.cells.size ≤ t.cells.size := hlabelled.keeps.run hstore
      refine ⟨own', hagree₁.trans (hagree.mono hsize), ?_, fun t' ht' => ?_⟩
      · exact hlabelled.run_congr halong₁ hstore hagree
      · rw [hstore] at ht'
        cases ht'
        exact hrest

namespace Explored

variable (h : ev.Explored old own root r s)

include h

theorem grow {t : Store} (hst : s.Grows s.records.size t) (ht : t.WellFormed t.records.size)
    (hfaithful : ev.Faithful old t.records.size t)
    (hreplayable : ev.Replayable old own t.records.size t) : ev.Explored old own root r t where
  wellFormed := ht
  record := Nat.lt_of_lt_of_le h.record hst.covers.records
  old_le := Nat.le_trans h.old_le hst.covers.cells
  settled c hold hc := h.settled c hold ((hst.running c).1 hc)
  faithful := hfaithful
  replayable := hreplayable
  tree later hlater := by
    obtain ⟨W, t', w, k, hW, hcoupled, hidle, hfresh, hrk, hw, htree⟩ :=
      h.tree later (hst.toExtends.trans hlater hst.covers.records)
    exact ⟨W, t', w, k, hW, hcoupled, hidle,
      fun hcd hown => Nat.lt_of_lt_of_le (hfresh hcd hown) hst.covers.cells, hrk, hw, htree⟩

/-- Nothing is being computed on either side. -/
theorem inStep {W : Pairing} {t : Store} (hW : s.Alike W t) (hcoupled : Coupled old own s W t)
    (hidle : ∀ d, (t.cell d).progress ≠ .running)
    (hfresh : ∀ {c d}, W.cell c d → own c = none → c < s.cells.size) :
    ev.InStep old own none s W t where
  wellFormed := h.wellFormed
  replayable := h.replayable
  old_le := h.old_le
  alike := hW
  coupled := hcoupled
  within := ⟨hfresh, by rintro y ⟨⟩⟩
  busy _ hd := absurd hd (hidle _)
  active hold hc := absurd hc (h.settled _ hold)

variable (hev : ev.registry.types = []) {fuel : Nat}

include hev

/-- Accessing a field ends. -/
theorem field_ends (hfuel : 3 * ev.maxDepth + 3 ≤ fuel) (name : String) :
    ev.run fuel (Program.field r name) s ≠ .exhausted := by
  obtain ⟨W, t, w, k, hW, hcoupled, -, -, hrk, -, -⟩ := h.tree s (.refl _ s)
  have hupto : (W.upto s).record r k := ⟨hrk, h.record⟩
  have halike : (Program.field r name).GivesAlike (Program.field k name) t.records.size
      (W.upto s) := Program.field_givesAlike hupto name
  refine (ev.carryOut_refinesByName hev fuel 0).run_ends h.wellFormed
    (Program.field_givesValue r name) h.faithful h.old_le halike hW (fun _ _ => hcoupled.recent)
    (Program.calls_trivial _) fun {c d s t W} hs hc hfaithful hold hW hfrom hcd _ => ?_
  exact carryOut_ends hev (Nat.le_trans (ev.enoughFuel_le 0 c) hfuel) hs hc hfaithful hold hW hfrom
    hcd

/-- Accessing a field keeps what has been computed. -/
theorem field_keeps {name : String} (halong : (Program.field r name).Along (ev.carryOut fuel 0)
      (fun c => own c = none) (ev.Owns own fuel 0 none) s) {t : Store}
    (ht : (ev.run fuel (Program.field r name) s).store? = some t) :
    ev.Explored old own root r t := by
  have hgives : (Program.field r name).GivesValue s.records.size s :=
    Program.field_givesValue r name
  have hneed : ev.RefinesByNeed old own (ev.carryOut fuel 0) (ev.Owns own fuel 0) :=
    ev.carryOut_refinesByNeed hev fuel 0
  have hkept : (ev.run fuel (Program.field r name) s).Kept s fun t v => v.Valid t :=
    Program.Ensures.run hneed.promised h.wellFormed hgives
  obtain ⟨hwf, hgrows⟩ := hkept.of_store? ht
  exact h.grow hgrows hwf
    ((ev.carryOut_refinesByName hev fuel 0).run_keeps h.wellFormed hgives h.faithful ht)
    (hneed.run_keeps h.wellFormed hgives h.replayable halong ht)

/-- A field is what it is when nothing else is accessed. -/
theorem field_same (hfuel : 3 * ev.maxDepth + 3 ≤ fuel) {name : String}
    (halong : (Program.field r name).Along (ev.carryOut fuel 0) (fun c => own c = none)
      (ev.Owns own fuel 0 none) s) (hlimit : ¬ (ev.run fuel (Program.field r name) s).IsLimit) :
    ∃ o, Eventually (ev.fieldFreely root name) o ∧
      (ev.run fuel (Program.field r name) s).Same o := by
  have hgives : (Program.field r name).GivesValue s.records.size s :=
    Program.field_givesValue r name
  have hneed : ev.RefinesByNeed old own (ev.carryOut fuel 0) (ev.Owns own fuel 0) :=
    ev.carryOut_refinesByNeed hev fuel 0
  have hkept : (ev.run fuel (Program.field r name) s).Kept s fun t v => v.Valid t :=
    Program.Ensures.run hneed.promised h.wellFormed hgives
  have halike {W : Pairing} {t : Store} {k : RecordId} (hrk : W.record r k) :
      (Program.field r name).GivesAlike (Program.field k name) t.records.size (W.upto s) := by
    have hupto : (W.upto s).record r k := ⟨hrk, h.record⟩
    exact Program.field_givesAlike hupto name
  cases hrun : ev.run fuel (Program.field r name) s with
  | value v u =>
    rw [hrun] at hkept
    obtain ⟨W, t, w, k, hW, hcoupled, hidle, hfresh, hrk, hw, htree⟩ :=
      h.tree u hkept.2.1.toExtends
    have hwithin : Within own none s W t := ⟨hfresh, by rintro y ⟨⟩⟩
    obtain ⟨W', t', v', -, -, -, hvv, heventually⟩ := hneed.run_value h.wellFormed hgives
      h.replayable halong h.old_le (halike hrk) hrun (.refl _ u) hW hcoupled hwithin
      fun _ hd => absurd hd (hidle _)
    exact ⟨.value v' t', fieldFreely_of_tree htree hw heventually, hvv.same⟩
  | error e u =>
    rw [hrun] at hlimit
    obtain ⟨W, t, w, k, hW, hcoupled, hidle, hfresh, hrk, hw, htree⟩ := h.tree s (.refl _ s)
    obtain ⟨t', heventually⟩ := hneed.run_error (h.inStep hW hcoupled hidle hfresh) hgives halong
      (halike hrk) (carryOut_fails hev) hrun hlimit
    exact ⟨.error e t', fieldFreely_of_tree htree hw heventually, rfl⟩
  | exhausted => exact absurd hrun (h.field_ends hev hfuel name)

/-- So it is after any other accesses. -/
theorem fieldAfter_same (hfuel : 3 * ev.maxDepth + 3 ≤ fuel) {name : String}
    {history : List String} (howns : ev.OwnsFields own fuel r (history ++ [name]) s)
    (hlimit : ¬ (ev.fieldAfter fuel r name history s).IsLimit) :
    ∃ o, Eventually (ev.fieldFreely root name) o ∧
      (ev.fieldAfter fuel r name history s).Same o := by
  induction history generalizing s with
  | nil => exact h.field_same hev hfuel howns.1 hlimit
  | cons first rest ih =>
    obtain ⟨halong, hrest⟩ := howns
    cases hstore : (ev.run fuel (Program.field r first) s).store? with
    | none =>
      refine absurd ?_ (h.field_ends hev hfuel first)
      cases hrun : ev.run fuel (Program.field r first) s with
      | exhausted => rfl
      | _ =>
        rw [hrun] at hstore
        cases hstore
    | some t =>
      have hafter : ev.fieldAfter fuel r name (first :: rest) s =
          ev.fieldAfter fuel r name rest t := by
        rw [fieldAfter, hstore]
      rw [hafter] at hlimit ⊢
      exact ih (h.field_keeps hev halong hstore) (hrest t hstore) hlimit

end Explored

/-- When a tree has been evaluated, nothing but itself has been computed. -/
theorem explored_tree (hev : ev.registry.types = []) (hs : s.WellFormed s.records.size) {fuel : Nat}
    {v : Value} {t : Store} (hrun : ev.evaluateTopLevel fuel root s = .value v t)
    (hv : v.payload = .record r) (halong : (ev.wholeTree root).Along (ev.carryOut fuel 0)
      (fun c => own c = none) (ev.Owns own fuel 0 none) s) :
    ev.Explored s.cells.size own root r t := by
  have hgives : (ev.wholeTree root).GivesValue s.records.size s := ev.wholeTree_givesValue root
  have hneed : ev.RefinesByNeed s.cells.size own (ev.carryOut fuel 0) (ev.Owns own fuel 0) :=
    ev.carryOut_refinesByNeed hev fuel 0
  have hreplayable : ev.Replayable s.cells.size own s.records.size s :=
    fun _ _ hold hz => absurd hz (Nat.not_lt.2 hold)
  obtain ⟨hwf, hgrows, hvalid, hfaithful, -⟩ := topLevel_value hev root hs hrun {}
  refine ⟨hwf, ?_, hgrows.covers.cells, ?_, hfaithful, ?_, fun later hlater => ?_⟩
  · have hpayload : v.payload.Valid t := hvalid
    rwa [hv] at hpayload
  · intro c hold hc
    have hcs := (hgrows.running c).1 hc
    exact absurd (Store.inside_of_running hcs) (Nat.not_lt.2 hold)
  · exact hneed.run_keeps hs hgives hreplayable halong
      (by rw [Evaluator.evaluateTopLevel, Evaluator.run] at hrun; rw [hrun]; rfl)
  · have hcoupled : Coupled s.cells.size own later .empty {} :=
      ⟨False.elim, False.elim, False.elim, False.elim, False.elim, False.elim⟩
    obtain ⟨W, t', w, hW, hcoupled', hframe, hvw, heventually⟩ :=
      hneed.run_value hs hgives hreplayable halong (Nat.le_refl _) (ev.wholeTree_givesAlike root)
        hrun hlater (Store.alike_empty _ _) hcoupled ⟨False.elim, by rintro y ⟨⟩⟩ False.elim
    have hpayload := hvw.payload
    rw [hv] at hpayload
    generalize hk : w.payload = y at hpayload
    cases hpayload with
    | @record _ k hrk =>
      refine ⟨W, t', w, k, hW, hcoupled', fun d hd => ?_, fun {c d} hcd hown => ?_, hrk, hk,
        heventually⟩
      · exact absurd (Store.inside_of_running ((hframe.running d).1 hd)) (Nat.not_lt_zero _)
      · obtain hempty | ⟨-, ⟨-, hc⟩ | ⟨y, hy, -⟩⟩ := hframe.new hcd
        · exact hempty.elim
        · exact hc
        · rw [hown] at hy
          cases hy

/-- What a field of a tree is does not depend on which fields are accessed before, how often and in
    which order, and whether that fails. -/
theorem field_order_independent (hev : ev.registry.types = []) {fuel : Nat}
    (hfuel : 3 * ev.maxDepth + 3 ≤ fuel) {root : Expr} {s s' t t' : Store} {v v' : Value}
    {r r' : RecordId} (hs : Session ev.registry s) (hs' : Session ev.registry s')
    (htree : ev.evaluateTopLevel fuel root s = .value v t)
    (htree' : ev.evaluateTopLevel fuel root s' = .value v' t') (hv : v.payload = .record r)
    (hv' : v'.payload = .record r') (name : String) (history history' : List String)
    (hlimit : ¬ (ev.fieldAfter fuel r name history t).IsLimit)
    (hlimit' : ¬ (ev.fieldAfter fuel r' name history' t').IsLimit) :
    (ev.fieldAfter fuel r name history t).Same (ev.fieldAfter fuel r' name history' t') := by
  have hreference {s t : Store} {v : Value} {r : RecordId} {history : List String}
      (hs : Session ev.registry s) (htree : ev.evaluateTopLevel fuel root s = .value v t)
      (hv : v.payload = .record r) (hlimit : ¬ (ev.fieldAfter fuel r name history t).IsLimit) :
      ∃ o, Eventually (ev.fieldFreely root name) o ∧
        (ev.fieldAfter fuel r name history t).Same o := by
    have hwf := hs.wellFormed (Registry.sound_of_types_eq_nil hev)
    have hlabelled := ev.owns_labelled fuel 0 none
    have hstore : ((ev.wholeTree root).run (ev.carryOut fuel 0) s).store? = some t := by
      rw [Evaluator.evaluateTopLevel, Evaluator.run] at htree
      rw [htree]
      rfl
    obtain ⟨own₁, -, halong⟩ :=
      hlabelled.exists_run none (fun _ => none) (ev.wholeTree root) s
    obtain ⟨own, hagree, howns⟩ :=
      ev.exists_ownsFields r fuel (history ++ [name]) own₁ t
    have hexplored := explored_tree hev hwf htree hv (hlabelled.run_congr halong hstore hagree)
    exact hexplored.fieldAfter_same hev hfuel howns hlimit
  obtain ⟨o, heventually, hsame⟩ := hreference hs htree hv hlimit
  obtain ⟨o', heventually', hsame'⟩ := hreference hs' htree' hv' hlimit'
  rw [heventually.unique heventually'] at hsame
  exact hsame.trans hsame'.symm

/-- A tree with a member that needs another one, and with one that needs itself. -/
def siblingsExpr : Expr :=
  .ofMembers [.ofName "a" (.ofName "b"), .ofName "b" (.ofTruth true), .ofName "c" (.ofName "c")]

/-- A member is the same when others have been accessed before, one of which has failed twice. -/
theorem field_order_independent_siblings :
    ∃ (ev : Evaluator) (v : Value) (t : Store) (r : RecordId),
      ev.evaluateTopLevel 15 siblingsExpr {} = .value v t ∧ v.payload = .record r ∧
        (ev.fieldAfter 15 r "a" ["c", "b", "c"] t).Same (ev.fieldAfter 15 r "a" [] t) := by
  let ev : Evaluator := { registry := {}, maxDepth := 4 }
  have hruns : ((ev.evaluateTopLevel 15 siblingsExpr {}).value?.any fun p =>
      p.1.asRecord.toOption.any fun r =>
        (ev.fieldAfter 15 r "a" ["c", "b", "c"] p.2).value?.isSome &&
          (ev.fieldAfter 15 r "a" [] p.2).value?.isSome) = true := by
    decide +kernel
  obtain ⟨⟨v, t⟩, htree, hrecord⟩ := (Option.any_eq_true _ _).1 hruns
  obtain ⟨r, hr, hfields⟩ := (Option.any_eq_true _ _).1 hrecord
  obtain ⟨hafter, hfirst⟩ := Bool.and_eq_true_iff.1 hfields
  obtain ⟨found, hafter⟩ := Option.isSome_iff_exists.1 hafter
  obtain ⟨found', hfirst⟩ := Option.isSome_iff_exists.1 hfirst
  have hv : v.payload = .record r := by
    unfold Value.asRecord at hr
    split at hr
    · next id hpayload =>
      cases hr
      exact hpayload
    · cases hr
  replace htree := Outcome.value?_eq_some htree
  refine ⟨ev, v, t, r, htree, hv, ?_⟩
  refine field_order_independent rfl (Nat.le_refl 15) .start .start htree htree hv hv "a"
    ["c", "b", "c"] [] ?_ ?_
  · rw [Outcome.value?_eq_some hafter]
    exact id
  · rw [Outcome.value?_eq_some hfirst]
    exact id

end Evaluator

end NetDesc
