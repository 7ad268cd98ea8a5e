import NetDesc.Proofs.Endless.Passing
import NetDesc.Proofs.Format.Repeated

namespace NetDesc

open Relation (ReflTransGen TransGen)

namespace Store

/-- Some record or array is inside of itself. -/
def SelfContaining (s : Store) : Prop :=
  ∃ v u, v.Valid s ∧ TransGen s.HasPart v u ∧ u.payload = v.payload

variable {s t : Store} {v u : Value}

/-- What is inside of a value stays there. -/
theorem within_later (hst : s.Extends s.records.size t) (hs : s.WellFormed s.records.size)
    (hv : v.Valid s) (h : TransGen s.HasPart v u) : TransGen t.HasPart v u := by
  induction h with
  | single hpart => exact .single (hpart.later hst hs hv)
  | tail hinside hpart ih =>
    exact ih.tail (hpart.later hst hs (valid_of_inside hs hv hinside.to_reflTransGen))

/-- As long as nothing more has been computed, nothing more is inside of itself: whatever is, is
    something that was computed, so the records on the way around were there before. -/
theorem SelfContaining.earlier (h : t.SelfContaining) (hst : s.Extends s.records.size t)
    (hs : s.WellFormed s.records.size) (ht : t.WellFormed t.records.size)
    (hsame : ∀ c < t.cells.size, ∀ v, (t.cell c).progress = .finished v →
      c < s.cells.size ∧ (s.cell c).progress = .finished v) : s.SelfContaining := by
  obtain ⟨v, u, hv, hinside, heq⟩ := h
  have hvalid : v.Valid s := by
    obtain ⟨w, hw, c, hc, hu⟩ := TransGen.tail'_iff.1 hinside
    obtain ⟨hlt, hu⟩ := hsame c (ht.parts_lt (valid_of_inside ht hv hw) c hc) u hu
    have hvalid := (hs.cell c hlt).value u hu
    rwa [Value.Valid, heq] at hvalid
  refine ⟨v, u, hvalid, ?_, heq⟩
  clear heq
  have hpart {x y : Value} (hx : x.Valid s) (h : t.HasPart x y) : s.HasPart x y := by
    obtain ⟨c, hc, hy⟩ := h
    rw [hst.parts_eq hx] at hc
    exact ⟨c, hc, (hsame c (Nat.lt_of_lt_of_le (hs.parts_lt hx c hc) hst.covers.cells) y hy).2⟩
  induction hinside with
  | single h => exact .single (hpart hvalid h)
  | tail _ h ih => exact ih.tail (hpart (valid_of_inside hs hvalid ih.to_reflTransGen) h)

end Store

namespace Program

variable {α β : Type} {carryOut : (c : Call) → Store → Outcome c.Reply} {mine : CellId → Prop}
  {asked : Call → Store → Prop} {s : Store}

theorem Along.bind {x : Program α} {f : α → Program β} (hx : x.Along carryOut mine asked s)
    (hf : ∀ a t, x.run carryOut s = .value a t → (f a).Along carryOut mine asked t) :
    (x >>= f).Along carryOut mine asked s := by
  change (x.bind f).Along carryOut mine asked s
  induction x generalizing s with
  | done a => exact hf a s rfl
  | raise e => trivial
  | access a next ih => exact ⟨hx.1, ih _ hx.2 hf⟩
  | call c next ih =>
    refine ⟨hx.1, fun reply t hreply => ih reply (hx.2 reply t hreply) fun b u hu => hf b u ?_⟩
    rw [run, hreply]
    exact hu

end Program

namespace Render

variable {carryOut : (c : Call) → Store → Outcome c.Reply} {v : Value} {s : Store}

/-- What is formatted is a part of `v`. -/
def FormatsPart (v : Value) (c : Call) (s : Store) : Prop :=
  ∀ spec w, c = .render spec w → s.HasPart v w

theorem forceAll_along (cells : List CellId) (s : Store) :
    (Program.forceAll cells).Along carryOut (fun _ => True) (FormatsPart v) s := by
  induction cells generalizing s with
  | nil => trivial
  | cons c cells ih =>
    rw [Program.forceAll, List.mapM_cons]
    have hforce : (Program.force c).Along carryOut (fun _ => True) (FormatsPart v) s :=
      ⟨by rintro spec w ⟨⟩, fun _ _ _ => trivial⟩
    exact .bind hforce fun w t _ => .bind (ih t) fun _ _ _ => trivial

variable (hcalls : Program.Promised carryOut)

include hcalls

theorem members_along (spec : FormatSpec) {found : Array String} {named : List (String × Member)}
    (hs : s.WellFormed s.records.size) (hv : v.Valid s)
    (hnamed : ∀ p ∈ named, p.2.cell ∈ s.parts v) :
    (members spec found named).Along carryOut (fun _ => True) (FormatsPart v) s := by
  induction named generalizing found s with
  | nil => trivial
  | cons p named ih =>
    obtain ⟨name, m⟩ := p
    have hpart : m.cell ∈ s.parts v := hnamed (name, m) (by simp)
    have hcell : m.cell < s.cells.size := hs.parts_lt hv m.cell hpart
    refine ⟨by rintro spec w ⟨⟩, fun (u : Value) s₁ hforce => ?_⟩
    obtain ⟨hs₁, hgrows₁, hu, hfinished, -⟩ := hcalls.answer (.force m.cell) hs hcell hforce
    have hsame₁ := hgrows₁.toExtends.parts_eq hv
    refine ⟨?_, fun (text : String) s₂ hrender => ?_⟩
    · rintro _ _ ⟨⟩
      exact ⟨m.cell, by rwa [hsame₁], hfinished⟩
    · obtain ⟨hs₂, hgrows₂, -⟩ := hcalls.answer (.render spec u) hs₁ hu hrender
      have hv₁ := hv.mono hgrows₁.covers
      have hsame₂ := hgrows₂.toExtends.parts_eq hv₁
      refine ih hs₂ (hv₁.mono hgrows₂.covers) fun q hq => ?_
      rw [hsame₂, hsame₁]
      exact hnamed q (List.mem_cons_of_mem _ hq)

theorem elements_along (spec : FormatSpec) {found : Array String} {values : List Value}
    (hs : s.WellFormed s.records.size) (hv : v.Valid s)
    (hvalues : ∀ w ∈ values, s.HasPart v w) :
    (elements spec found values).Along carryOut (fun _ => True) (FormatsPart v) s := by
  induction values generalizing found s with
  | nil => trivial
  | cons w values ih =>
    have hpart : s.HasPart v w := hvalues w (by simp)
    refine ⟨?_, fun (text : String) s₁ hrender => ?_⟩
    · rintro _ _ ⟨⟩
      exact hpart
    · obtain ⟨hs₁, hgrows, -⟩ := hcalls.answer (.render spec w) hs (hpart.valid hs hv) hrender
      refine ih hs₁ (hv.mono hgrows.covers) fun x hx => ?_
      exact (hvalues x (List.mem_cons_of_mem _ hx)).later hgrows.toExtends hs hv

/-- To format a value is to format parts of it. -/
theorem value_along (spec : FormatSpec) (hs : s.WellFormed s.records.size) (hv : v.Valid s) :
    (value spec v).Along carryOut (fun _ => True) (FormatsPart v) s := by
  rw [value]
  split
  · trivial
  · trivial
  · trivial
  · next id hid =>
    have hnamed : ∀ p ∈ (s.record id).members.toList, p.2.cell ∈ s.parts v := fun p hp => by
      rw [Store.parts_record hid]
      exact List.mem_map_of_mem hp
    refine ⟨fun _ => trivial, ?_⟩
    change ((members spec #[] (s.record id).members.toList) >>= _).Along _ _ _ s
    exact .bind (members_along hcalls spec hs hv hnamed) fun _ _ _ => trivial
  · next a ha =>
    have hcells : ∀ c ∈ a.cells.toList, c < s.cells.size := by
      rw [← Store.parts_array ha]
      exact hs.parts_lt hv
    refine .bind (forceAll_along _ s) fun values t hforced => ?_
    obtain ⟨ht, hgrows, -, hvalues⟩ :=
      (Program.forceAll_ensures hcells).run_value hcalls hs hforced
    have hvt := hv.mono hgrows.covers
    have hheld : List.Forall₂ (flip fun w (_ : CellId) => t.HasPart v w ∧ True) a.cells.toList
        values := ((List.forall₂_and_left _ _).2 ⟨fun c hc => hc, hvalues⟩).imp fun c w h => by
      refine ⟨⟨c, ?_, h.2.2⟩, trivial⟩
      rw [Store.parts_array ha]
      exact h.1
    have hparts := ((List.forall₂_and_left _ _).1 hheld.flip).1
    exact .bind (elements_along hcalls spec ht hvt hparts) fun _ _ _ => trivial
  · trivial
  · exact ⟨fun _ => trivial, trivial⟩

end Render

/-- The call is made in a well-formed store and refers to what is there. -/
structure Demand.Good (d : Demand) : Prop where
  wellFormed : d.store.WellFormed d.store.records.size
  valid : d.call.Valid d.store

namespace Evaluator

variable {ev : Evaluator} {d d' : Demand} (hr : ev.registry.Sound)

/-- Values are formatted inside of values without end: each of them is a part of the one before,
    and no two are the same record or array. -/
structure EndlessDescent (ev : Evaluator) (chain : Nat → Demand) : Prop where
  isChain : ev.IsChain chain
  descends : ∃ v : Nat → Value, (∀ i, ∃ spec, (chain i).call = .render spec (v i)) ∧
    (∀ i, (chain (i + 1)).store.HasPart (v i) (v (i + 1))) ∧
      Function.Injective fun i => (v i).payload

theorem EndlessDescent.endlessText {chain : Nat → Demand} (h : ev.EndlessDescent chain) :
    ev.EndlessText chain := by
  obtain ⟨hchain, v, hcall, -⟩ := h
  exact ⟨hchain, fun i => (hcall i).imp fun spec h => ⟨v i, h⟩⟩

include hr

theorem Involves.good (h : ev.Involves d d') (hd : d.Good) :
    d'.Good ∧ d.store.Extends d.store.records.size d'.store := by
  obtain ⟨depth, c, s⟩ := d
  obtain ⟨depth', c', t⟩ := d'
  obtain ⟨fuel, h⟩ := h
  obtain ⟨hs, hc⟩ := hd
  have hreaches {α : Type} {x : Program α} {P : Nat → Store → α → Prop}
      {next : c'.Reply → Program α} (hx : x.Ensures s.records.size s P)
      (h : Program.Reaches (ev.carryOut fuel depth') x s (.call c' next) t) :
      Demand.Good ⟨depth', c', t⟩ ∧ s.Extends s.records.size t := by
    obtain ⟨b, -, ht, hgrows, hcall⟩ :=
      (hx hs).reaches (carryOut_promised hr fuel depth') hs h
    exact ⟨⟨ht.seal, hcall.1⟩, hgrows.toExtends⟩
  cases h with
  | @evaluate _ _ e scope path _ _ _ _ hdepth h =>
    have htask : (Task.evaluate e scope path).Valid s := hc
    exact hreaches (taskProgram_givesValue hr htask) h
  | @element _ _ f index path location _ _ _ _ h =>
    have htask : (Task.element f index path location).Valid s := hc
    exact hreaches (taskProgram_givesValue hr htask) h
  | @force _ _ cell _ hpending =>
    exact ⟨⟨hs.start hpending, hs.task_valid hc⟩, s.start_extends _ hpending⟩
  | render h => exact hreaches (Render.value_ensures _ hc) h
  | tie h => exact hreaches (Network.tieStep_ensures hc) h

/-- What is formatted inside of a value is a part of it. -/
theorem Involves.hasPart {spec spec' : FormatSpec} {v w : Value} (h : ev.Involves d d')
    (hd : d.Good) (hv : d.call = .render spec v) (hw : d'.call = .render spec' w) :
    d'.store.HasPart v w := by
  obtain ⟨depth, c, s⟩ := d
  obtain ⟨depth', c', t⟩ := d'
  obtain ⟨fuel, h⟩ := h
  cases hv
  cases hw
  cases h with
  | render h =>
    have halong := Render.value_along (carryOut_promised hr fuel depth) spec hd.wellFormed hd.valid
    exact (halong.reaches h).1 spec' w rfl

theorem Takes.good {α : Type} {x : Program α} {s : Store} {P : Nat → Store → α → Prop}
    (hx : x.Ensures s.records.size s P) (hs : s.WellFormed s.records.size)
    (h : ev.Takes x s d) : d.Good := by
  obtain ⟨fuel, c, next, t, hreach, htakes⟩ := h
  obtain ⟨b, -, ht, -, hcall⟩ := (hx hs).reaches (carryOut_promised hr fuel 0) hs hreach
  induction htakes with
  | refl => exact ⟨ht.seal, hcall.1⟩
  | tail _ hstep ih => exact (hstep.good hr ih).1

/-- Where nothing is inside of itself, a text without end descends to ever new records and
    arrays: each of them is a part of the one before, and no two are the same. -/
theorem EndlessText.endlessDescent {chain : Nat → Demand} (h : ev.EndlessText chain)
    (hgood : (chain 0).Good) (hacyclic : ∀ i, ¬(chain i).store.SelfContaining) :
    ev.EndlessDescent chain := by
  choose spec v hcall using h.render
  have hgoods (i : Nat) : (chain i).Good := by
    induction i with
    | zero => exact hgood
    | succ i ih => exact ((h.isChain i).good hr ih).1
  have hgrows (i : Nat) :
      (chain i).store.Extends (chain i).store.records.size (chain (i + 1)).store :=
    ((h.isChain i).good hr (hgoods i)).2
  have hpart (i : Nat) : (chain (i + 1)).store.HasPart (v i) (v (i + 1)) :=
    (h.isChain i).hasPart hr (hgoods i) (hcall i) (hcall (i + 1))
  have hvalid (i k : Nat) : (v i).Valid (chain (i + k)).store := by
    induction k with
    | zero =>
      have hi := (hgoods i).valid
      rwa [hcall i] at hi
    | succ k ih => exact ih.mono (hgrows (i + k)).covers
  have hinside (i k : Nat) :
      TransGen (chain (i + k + 1)).store.HasPart (v i) (v (i + k + 1)) := by
    induction k with
    | zero => exact .single (hpart i)
    | succ k ih =>
      have hlater := Store.within_later (hgrows (i + k + 1)) (hgoods _).wellFormed
        (hvalid i (k + 1)) ih
      exact hlater.tail (hpart (i + k + 1))
  have hne (i k : Nat) : (v i).payload ≠ (v (i + k + 1)).payload := fun heq =>
    hacyclic _ ⟨v i, v (i + k + 1), hvalid i (k + 1), hinside i k, heq.symm⟩
  refine ⟨h.isChain, v, fun i => ⟨spec i, hcall i⟩, hpart, fun i j heq => ?_⟩
  rcases Nat.lt_trichotomy i j with hij | rfl | hji
  · obtain ⟨k, rfl⟩ := Nat.exists_eq_add_of_lt hij
    exact absurd heq (hne i k)
  · rfl
  · obtain ⟨k, rfl⟩ := Nat.exists_eq_add_of_lt hji
    exact absurd heq.symm (hne j k)

omit hr

/-- Formatting a value, once the format has been read. -/
def formatting (v : Value) (how : String) : Program String := do
  Program.render (← FormatSpec.parse how v.location) v

/-- The evaluator gives the value for the whole tree or for one of its members. -/
def Gives (ev : Evaluator) (root : Expr) (s : Store) (v : Value) (t : Store) : Prop :=
  (∃ fuel, ev.evaluateTopLevel fuel root s = .value v t) ∨
    ∃ name fuel, ev.evaluateMember fuel root name s = .value v t

include hr

theorem Gives.kept {root : Expr} {s t : Store} {v : Value} (h : ev.Gives root s v t)
    (hs : s.WellFormed s.records.size) : t.WellFormed t.records.size ∧ v.Valid t := by
  have hcalls (fuel : Nat) := carryOut_promised hr fuel 0
  have htree (fuel : Nat) {v : Value} {t : Store}
      (h : ev.evaluateTopLevel fuel root s = .value v t) :
      t.WellFormed t.records.size ∧ v.Valid t := by
    obtain ⟨ht, -, hv⟩ :=
      Program.Ensures.run_value (ev.wholeTree_givesValue root) (hcalls fuel) hs h
    exact ⟨ht, hv⟩
  rcases h with ⟨fuel, h⟩ | ⟨name, fuel, h⟩
  · exact htree fuel h
  · obtain ⟨r, u, hr, h⟩ := Outcome.bind_eq_value h
    obtain ⟨hu, hvalid⟩ := htree fuel hr
    obtain ⟨ht, -, hv⟩ := Program.Ensures.run_value
      (Program.memberOf_givesValue hvalid name root.location) (hcalls fuel) hu
      (Outcome.through_eq_value h)
    exact ⟨ht, hv⟩

end Evaluator

end NetDesc
