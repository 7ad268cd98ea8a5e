import NetDesc.Proofs.Endless.Descents
import NetDesc.Proofs.Endless.Texts

namespace NetDesc

open Relation (TransGen)

namespace Store

/-- A record that was never made has no members. -/
theorem not_mem_members {s : Store} {r : RecordId} (hr : s.records.size ≤ r) (p : String × Member) :
    p ∉ (s.record r).members := by
  have hnone : s.record r = default := by simp [Store.record, hr]
  rw [hnone]
  exact Array.not_mem_empty p

/-- Cells hold no arrays, and every record that is a member was made after the record that it is a
    member of. -/
structure Rising (s : Store) : Prop where
  array : ∀ c u, (s.cell c).progress = .finished u → ∀ a, u.payload ≠ .array a
  record : ∀ r, ∀ p ∈ (s.record r).members, ∀ u, (s.cell p.2.cell).progress = .finished u →
    ∀ r', u.payload = .record r' → r < r'

variable {s t : Store} {v u : Value}

/-- Only records and arrays have parts. -/
theorem HasPart.record_or_array (h : s.HasPart v u) :
    (∃ r, v.payload = .record r) ∨ ∃ a, v.payload = .array a := by
  obtain ⟨c, hc, -⟩ := h
  unfold parts at hc
  split at hc
  · next r hr => exact .inl ⟨r, hr⟩
  · next a ha => exact .inr ⟨a, ha⟩
  · cases hc

namespace Rising

section Inside

variable (h : s.Rising)

include h

theorem lt_of_hasPart (hpart : s.HasPart v u) {r r' : RecordId} (hv : v.payload = .record r)
    (hu : u.payload = .record r') : r < r' := by
  obtain ⟨c, hc, hfinished⟩ := hpart
  rw [parts_record hv] at hc
  obtain ⟨p, hp, rfl⟩ := List.mem_map.1 hc
  exact h.record r p (Array.mem_toList_iff.1 hp) u hfinished r' hu

/-- Whatever is inside of a value and has parts itself is a record. -/
theorem record_of_inside (hu : TransGen s.HasPart v u)
    (hparts : (∃ r, u.payload = .record r) ∨ ∃ a, u.payload = .array a) :
    ∃ r, u.payload = .record r := by
  obtain ⟨w, -, c, -, hfinished⟩ := TransGen.tail'_iff.1 hu
  refine hparts.resolve_right ?_
  rintro ⟨a, ha⟩
  exact h.array c u hfinished a ha

theorem lt_of_inside (hu : TransGen s.HasPart v u) {r r' : RecordId} (hv : v.payload = .record r)
    (hr : u.payload = .record r') : r < r' := by
  induction hu generalizing r' with
  | single hpart => exact h.lt_of_hasPart hpart hv hr
  | tail hw hpart ih =>
    obtain ⟨k, hk⟩ := h.record_of_inside hw hpart.record_or_array
    exact Nat.lt_trans (ih hk) (h.lt_of_hasPart hpart hk hr)

theorem not_selfContaining : ¬s.SelfContaining := by
  rintro ⟨v, u, -, hinside, heq⟩
  obtain ⟨w, hpart, -⟩ := TransGen.head'_iff.1 hinside
  obtain ⟨r, hr⟩ := h.record_of_inside hinside (heq ▸ hpart.record_or_array)
  exact Nat.lt_irrefl r (h.lt_of_inside hinside (heq ▸ hr) hr)

end Inside

/-- Cells that have not been computed do no harm. -/
theorem newCell (h : s.Rising) {c : Cell} (hc : ∀ u, c.progress ≠ .finished u) :
    ({ s with cells := s.cells.push c } : Store).Rising where
  array id u hu := by
    rw [cell_push] at hu
    split at hu
    · exact absurd hu (hc u)
    · exact h.array id u hu
  record r p hp u hu := by
    rw [cell_push] at hu
    split at hu
    · exact absurd hu (hc u)
    · exact h.record r p hp u hu

/-- Neither do records with members that have not been computed. -/
theorem newRecord (h : s.Rising) {r : Record}
    (hr : ∀ p ∈ r.members, ∀ u, (s.cell p.2.cell).progress ≠ .finished u) :
    ({ s with records := s.records.push r } : Store).Rising where
  array := h.array
  record id p hp u hu := by
    rw [record_push] at hp
    split at hp
    · exact absurd hu (hr p hp u)
    · exact h.record id p hp u hu

theorem start (h : s.Rising) (c : CellId) : (s.setProgress c .running).Rising where
  array id u hu := by
    rw [setProgress_cell] at hu
    split at hu
    · cases hu
    · exact h.array id u hu
  record r p hp u hu := by
    rw [setProgress_cell] at hu
    split at hu
    · cases hu
    · exact h.record r p hp u hu

/-- A cell may get a record that is later than those that it is in. -/
theorem settle (h : s.Rising) {c : CellId} {r' : RecordId} (hv : v.payload = .record r')
    (hc : ∀ r, ∀ p ∈ (s.record r).members, p.2.cell = c → r < r') :
    (s.setProgress c (.finished v)).Rising where
  array id u hu := by
    rw [setProgress_cell] at hu
    split at hu
    · cases hu
      simp [hv]
    · exact h.array id u hu
  record r p hp u hu k hk := by
    rw [setProgress_cell] at hu
    split at hu
    · next hid =>
      cases hu
      rw [hv] at hk
      cases hk
      exact hc r p hp hid.1.symm
    · exact h.record r p hp u hu k hk

end Rising

end Store

namespace Unfolding

open DelayChain (callExpr Sees)

/-- A record whose member is what `f` gives. If `f` gives such records, the member is computed
    when the record is formatted and gives another one. Each of them is new, so none is inside of
    itself. -/
def bodyExpr : Expr :=
  .ofMembers [.ofName "next" callExpr]

def makerExpr : Expr :=
  .function [] [] bodyExpr

/-- What `f` gives, where `f` gives a record of what `f` gives. -/
def treeExpr : Expr :=
  .ofMembers [.ofName "f" makerExpr, .ofName "v" callExpr]

/-- The record `home` has the function `f`, which has been computed. -/
structure Knows (home : RecordId) (s : Store) (m : Member) : Prop where
  inside : home < s.records.size
  found : (s.record home).find? "f" = some m
  cell_lt : m.cell < s.cells.size
  maker : ∃ v f, (s.cell m.cell).progress = .finished v ∧ v.payload = .function f ∧
    f.params = [] ∧ f.named = [] ∧ f.body = bodyExpr ∧ f.scope = home

/-- The member of the record `r` is what `f` gives, and is yet to be computed. -/
structure Opens (home r : RecordId) (s : Store) (m : Member) : Prop where
  members : (s.record r).members.toList = [("next", m)]
  sees : Sees home r s
  pending : (s.cell m.cell).progress = .pending
  task : ∃ path, (s.cell m.cell).task = .evaluate callExpr r path

/-- The record `r` goes on as `f` does, and nothing in the store is inside of itself. -/
structure Unfolds (home r : RecordId) (s : Store) (m first : Member) : Prop where
  opens : Opens home r s m
  knows : Knows home s first
  rising : s.Rising

variable {ev : Evaluator} {depth : Nat} {home r : RecordId} {s : Store} {m first : Member}

/-- The member of a record that `f` gives. -/
def nextOf (s : Store) : Member where
  location := .unknown
  cell := s.cells.size

/-- The store after a record that `f` gives has been made inside `outer`. -/
def made (outer : RecordId) (path : String) (s : Store) : Store :=
  { s with
    cells := s.cells.push (.suspended (.evaluate callExpr s.records.size path) .unknown path)
    records := s.records.push {
      members := #[("next", nextOf s)]
      enclosing := outer :: (s.record outer).enclosing } }

/-- The store after `f` has been called: the call has a record of its own, which is empty. -/
def called (home : RecordId) (path : String) (s : Store) : Store :=
  made s.records.size path
    { s with records := s.records.push { enclosing := home :: (s.record home).enclosing } }

theorem body_ends {outer : RecordId} {path : String} (hdepth : depth < ev.maxDepth) :
    (Program.evaluate bodyExpr outer path).Ends ev depth s (fun t v =>
      v.payload = .record s.records.size ∧ t = made outer (joinPath path "next") s) False := by
  refine .evaluate hdepth (.after ?_)
  let start : Record := { enclosing := outer :: (s.record outer).enclosing }
  let opened : Store := { s with records := s.records.push start }
  change Program.Ends ev (depth + 1) (Evaluator.addMembers s.records.size path
    [.ofName "next" callExpr] >>= fun _ => pure (Value.record s.records.size .unknown path))
      opened _ False
  have hrecord : opened.record s.records.size = start :=
    (Store.record_push s start _).trans (if_pos rfl)
  have hnew : ¬start.contains "next" = true := by rintro ⟨⟩
  rw [Evaluator.addMembers]
  refine .bind (P := fun t _ => t = made outer (joinPath path "next") s) (.readRecord ?_) ?_
  · rw [hrecord]
    refine Program.Ends.congr ?_ fun carryOut =>
      congrArg (Program.run carryOut · opened) (if_neg hnew)
    refine .after (.after (.pure ?_))
    refine congrArg (fun records : Array Record => ({ s with
      cells := s.cells.push (.suspended (.evaluate callExpr s.records.size (joinPath path "next"))
        .unknown (joinPath path "next"))
      records } : Store)) ((push_modify_size s.records start (·.add "next" (nextOf s))).trans ?_)
    rfl
  · rintro _ _ rfl
    exact .pure ⟨rfl, rfl⟩

/-- Calling `f` gives a record of what `f` gives. -/
theorem call_ends {path : String} (hdepth : depth + 2 < ev.maxDepth)
    (hfound : s.find? r "f" = some first) (hs : Knows home s first) :
    (Program.evaluate callExpr r path).Ends ev depth s (fun t v =>
      v.payload = .record (s.records.size + 1) ∧ ∃ inside, t = called home inside s) False := by
  obtain ⟨v, f, hv, hmaker⟩ := hs.maker
  refine .call_nullary (Q := fun t _ => t = s) (by omega)
    (.evaluate (by omega) (.lookup hfound _ (.force_finished hv ⟨⟨f, hmaker⟩, rfl⟩))) ?_
  rintro t w name rfl
  let opened : Store :=
    { t with records := t.records.push { enclosing := home :: (t.record home).enclosing } }
  refine (body_ends (by omega)).imp ?_ id
  rintro u x ⟨hx, hu⟩
  exact ⟨by simpa [opened] using hx, _, hu⟩

theorem Knows.setProgress (h : Knows home s first) {c : CellId} (hc : c ≠ first.cell)
    (p : Progress) : Knows home (s.setProgress c p) first where
  inside := h.inside
  found := h.found
  cell_lt := by simpa using h.cell_lt
  maker := by
    rw [Store.setProgress_cell_of_ne hc]
    exact h.maker

theorem Opens.setProgress (h : Opens home r s m) {c : CellId} (hc : c ≠ m.cell) (p : Progress) :
    Opens home r (s.setProgress c p) m where
  members := h.members
  sees := h.sees
  pending := by rw [Store.setProgress_cell_of_ne hc, h.pending]
  task := by
    rw [Store.setProgress_cell_of_ne hc]
    exact h.task

theorem made_record_self (outer : RecordId) (path : String) (s : Store) :
    (made outer path s).record s.records.size =
      { members := #[("next", nextOf s)], enclosing := outer :: (s.record outer).enclosing } :=
  (Store.record_push s _ _).trans (if_pos rfl)

theorem made_record_of_ne (outer : RecordId) (path : String) (h : r ≠ s.records.size) :
    (made outer path s).record r = s.record r :=
  (Store.record_push s _ _).trans (if_neg h)

theorem made_rising (h : s.Rising) (outer : RecordId) (path : String) :
    (made outer path s).Rising := by
  have hcell := h.newCell (c := .suspended (.evaluate callExpr s.records.size path) .unknown path)
    (by rintro u ⟨⟩)
  refine hcell.newRecord fun p hp u hu => ?_
  obtain rfl := List.mem_singleton.1 (Array.mem_toList_iff.2 hp)
  rw [Store.cell_push] at hu
  simp [nextOf, Cell.suspended] at hu

section Called

variable (home : RecordId) (path : String) (s : Store)

theorem called_record_of_lt (hr : r < s.records.size) :
    (called home path s).record r = s.record r := by
  refine (made_record_of_ne _ _ ?_).trans ((Store.record_push s _ _).trans (if_neg ?_))
  · simpa using Nat.ne_of_lt (Nat.lt_succ_of_lt hr)
  · exact Nat.ne_of_lt hr

theorem called_record_scope : (called home path s).record s.records.size =
    { enclosing := home :: (s.record home).enclosing } := by
  refine (made_record_of_ne _ _ ?_).trans ((Store.record_push s _ _).trans (if_pos rfl))
  simp

theorem called_record_made : (called home path s).record (s.records.size + 1) =
    { members := #[("next", nextOf s)]
      enclosing := s.records.size :: home :: (s.record home).enclosing } := by
  let opened : Store :=
    { s with records := s.records.push { enclosing := home :: (s.record home).enclosing } }
  have hsize : opened.records.size = s.records.size + 1 := by simp [opened]
  have hscope : opened.record s.records.size =
      { enclosing := home :: (s.record home).enclosing } :=
    (Store.record_push s _ _).trans (if_pos rfl)
  have hmade := made_record_self s.records.size path opened
  rwa [hsize, hscope] at hmade

theorem called_cell_of_lt {c : CellId} (hc : c < s.cells.size) :
    (called home path s).cell c = s.cell c :=
  (Store.cell_push s _ c).trans (if_neg (Nat.ne_of_lt hc))

variable {home s}

theorem Knows.called (h : Knows home s first) : Knows home (called home path s) first where
  inside := by
    simpa [Unfolding.called, made] using Nat.lt_succ_of_lt (Nat.lt_succ_of_lt h.inside)
  found := by rw [called_record_of_lt home path s h.inside, h.found]
  cell_lt := by simpa [Unfolding.called, made] using Nat.lt_succ_of_lt h.cell_lt
  maker := by
    rw [called_cell_of_lt home path s h.cell_lt]
    exact h.maker

theorem called_opens : Opens home (s.records.size + 1) (called home path s) (nextOf s) := by
  have hcell : (called home path s).cell (nextOf s).cell =
      .suspended (.evaluate callExpr (s.records.size + 1) path) .unknown path := by
    refine (Store.cell_push s _ _).trans ((if_pos rfl).trans ?_)
    simp
  have hmade := called_record_made home path s
  refine ⟨by rw [hmade], ⟨[s.records.size], _, by rw [hmade]; rfl, ?_⟩, ?_, path, ?_⟩
  · have hsize : (called home path s).records.size = s.records.size + 2 := by
      simp [Unfolding.called, made]
    simp only [List.forall_mem_cons, List.not_mem_nil, false_implies, implies_true, and_true]
    have hlt : s.records.size + 1 < s.records.size + 2 := Nat.lt_succ_self _
    exact ⟨⟨hsize ▸ hlt, by rw [hmade]; rfl⟩, hsize ▸ Nat.lt_of_succ_lt hlt,
      by rw [called_record_scope]; rfl⟩
  · rw [hcell]
    rfl
  · rw [hcell]
    rfl

theorem called_rising (h : s.Rising) : (called home path s).Rising := by
  refine made_rising (h.newRecord ?_) _ _
  intro p hp
  exact absurd hp (Array.not_mem_empty p)

end Called

theorem Unfolds.first_ne (h : Unfolds home r s m first) : m.cell ≠ first.cell := by
  obtain ⟨v, f, hv, -⟩ := h.knows.maker
  intro heq
  have hpending := h.opens.pending
  rw [heq, hv] at hpending
  cases hpending

/-- Computing the member makes another record of that kind. -/
theorem Unfolds.evaluate_ends (hdepth : depth + 2 < ev.maxDepth) (h : Unfolds home r s m first)
    (path : String) :
    let started := s.setProgress m.cell .running
    (Program.evaluate callExpr r path).Ends ev depth started (fun t v =>
      v.payload = .record (started.records.size + 1) ∧
        ∃ inside, t = called home inside started) False :=
  call_ends hdepth (h.opens.sees.find? h.knows.found) (h.knows.setProgress h.first_ne _)

theorem Unfolds.force_ends (hdepth : depth + 2 < ev.maxDepth) (h : Unfolds home r s m first) :
    (Program.force m.cell).Ends ev depth s (fun t v => ∃ r' m', v.payload = .record r' ∧
      Unfolds home r' t m' first) False := by
  have hends := h.evaluate_ends hdepth
  have hfirst := h.first_ne
  obtain ⟨hopens, hknows, hrising⟩ := h
  obtain ⟨path, htask⟩ := hopens.task
  have hlt := Store.lt_of_pending hopens.pending
  refine .force_pending hopens.pending ?_
  rw [htask]
  let started := s.setProgress m.cell .running
  refine (hends path).imp ?_ id
  rintro t v ⟨hv, inside, rfl⟩
  have hnew : m.cell ≠ (nextOf started).cell := by
    refine Nat.ne_of_lt ?_
    simpa [nextOf, started] using hlt
  refine ⟨_, nextOf started, hv, (called_opens inside).setProgress hnew _,
    ((hknows.setProgress hfirst _).called inside).setProgress hfirst _, ?_⟩
  refine (called_rising inside (hrising.start m.cell)).settle hv fun k p hp hp' => ?_
  by_contra hk
  rcases Nat.eq_or_lt_of_le (Nat.le_of_not_lt hk) with rfl | hk
  · rw [called_record_made] at hp
    obtain rfl := List.mem_singleton.1 (Array.mem_toList_iff.2 hp)
    exact hnew hp'.symm
  · refine Store.not_mem_members ?_ p hp
    simpa [called, made] using Nat.succ_le_of_lt hk

/-- There is no text. -/
theorem Unfolds.render_endless (hdepth : depth + 2 < ev.maxDepth) (h : Unfolds home r s m first)
    (spec : FormatSpec) {v : Value} (hv : v.payload = .record r) :
    ev.Endless ⟨depth, .render spec v, s⟩ := by
  intro fuel
  induction fuel generalizing r s m v with
  | zero => exact ev.carryOut_zero depth s _
  | succ fuel ih =>
    refine SelfRecord.render_exhausted hv h.opens.members (h.force_ends hdepth) ?_
    rintro t w ⟨r', m', hw, hlater⟩
    exact ih hlater hw

section Acyclic

variable (hr : ev.registry.Sound) (hdepth : depth + 2 < ev.maxDepth)

include hr hdepth

/-- Nothing is inside of itself while the member is computed: until it has been, nothing more has
    been computed than before. -/
theorem Unfolds.not_selfContaining_of_force (h : Unfolds home r s m first)
    (hwf : s.WellFormed s.records.size) {fuel : Nat} {t : Store}
    (ht : ev.Passes fuel depth (.force m.cell) s t) : ¬t.SelfContaining := by
  cases fuel with
  | zero =>
    cases ht
    exact h.rising.not_selfContaining
  | succ fuel =>
    have hpending := h.opens.pending
    have hlt := Store.lt_of_pending hpending
    obtain rfl | ⟨-, ht | ht⟩ := ht
    · exact h.rising.not_selfContaining
    · intro hself
      obtain ⟨path, htask⟩ := h.opens.task
      have hstarted := hwf.start hpending
      rw [htask] at ht
      have hvalid : (Call.perform (.evaluate callExpr r path)).Valid
          (s.setProgress m.cell .running) := htask ▸ hwf.task_valid hlt
      obtain ⟨n, w, u, hrun, -, inside, rfl⟩ := (h.evaluate_ends hdepth path).exists_value
      have hreply := (Program.run_call _ _ _).symm.trans (hrun (n + fuel) (Nat.le_add_right n fuel))
      have hpasses := Evaluator.passes_mono (Nat.le_add_left fuel n) ht
      have hlater := Evaluator.passes_advances hr _ depth _ _ t _ hstarted hvalid hpasses
        (congrArg Outcome.store? hreply)
      obtain ⟨hwft, hext⟩ := Evaluator.passes_keeps hr _ depth _ _ t hstarted hvalid hpasses
      refine (h.rising.start m.cell).not_selfContaining (hself.earlier hext hstarted hwft ?_)
      intro c hc v hv
      have hc' := hlater.finished c hc v hv
      have hsize : c < (s.setProgress m.cell .running).cells.size + 1 := by
        simpa [called, made] using Nat.lt_of_lt_of_le hc hlater.covers.cells
      rcases Nat.lt_succ_iff_lt_or_eq.1 hsize with hold | rfl
      · exact ⟨hold, by rwa [called_cell_of_lt home inside _ hold] at hc'⟩
      · cases (called_opens inside).pending.symm.trans hc'
    · have hrun := (h.force_ends hdepth).run_eq (fuel + 1)
      rw [show (Program.force m.cell).run _ s = ev.carryOut (fuel + 1) depth (.force m.cell) s from
        Program.run_call _ _ _] at hrun
      rcases hrun with hrun | ⟨w, u, hrun, r', m', -, hlater⟩ <;> rw [hrun] at ht <;> cases ht
      exact hlater.rising.not_selfContaining

/-- Neither is anything inside of itself while such a record is formatted. -/
theorem Unfolds.not_selfContaining_of_render (h : Unfolds home r s m first)
    (hwf : s.WellFormed s.records.size) {spec : FormatSpec} {v : Value}
    (hv : v.payload = .record r) {fuel : Nat} {t : Store}
    (ht : ev.Passes fuel depth (.render spec v) s t) : ¬t.SelfContaining := by
  induction fuel generalizing r s m v with
  | zero =>
    cases ht
    exact h.rising.not_selfContaining
  | succ fuel ih =>
    change (Render.value spec v).Passes (ev.carryOut fuel depth) (ev.Passes fuel depth) s t at ht
    rw [Render.value, hv] at ht
    cases ht with
    | start => exact h.rising.not_selfContaining
    | access ht =>
      change ((Render.members spec #[] (s.record r).members.toList).bind _).Passes _ _ s t at ht
      rw [h.opens.members] at ht
      cases ht with
      | start => exact h.rising.not_selfContaining
      | inside ht => exact h.not_selfContaining_of_force hr hdepth hwf ht
      | @reply _ _ _ _ w u hforce ht =>
        have hcell : (Call.force m.cell).Valid s := Store.lt_of_pending h.opens.pending
        have hwf' := ((Evaluator.carryOut_promised hr fuel depth).answer _ hwf hcell hforce).1
        obtain ⟨r', m', hw, hlater⟩ := (h.force_ends hdepth).of_run_value
          ((Program.run_call _ (.force m.cell) s).trans hforce)
        cases ht with
        | start => exact hlater.rising.not_selfContaining
        | inside ht => exact ih hlater hwf' hw ht
        | reply hrender _ =>
          cases (hlater.render_endless hdepth spec hw fuel).symm.trans hrender

end Acyclic

section Formatting

variable (hdepth : 2 < ev.maxDepth) (h : Unfolds home r s m first) {v : Value}
  (hv : v.payload = .record r) {how : String} {spec : FormatSpec}
  (hspec : FormatSpec.parse how v.location = .ok spec)

include hdepth h hv hspec

/-- However long the formatting goes on, there is no text and no error. -/
theorem Unfolds.formatValue_endless (fuel : Nat) : ev.formatValue fuel v how s = .exhausted := by
  rw [Evaluator.formatValue_eq hspec]
  exact h.render_endless hdepth spec hv fuel

theorem Unfolds.not_selfContaining_of_formatting (hr : ev.registry.Sound)
    (hwf : s.WellFormed s.records.size) {fuel : Nat} {t : Store}
    (ht : (Evaluator.formatting v how).Passes (ev.carryOut fuel 0) (ev.Passes fuel 0) s t) :
    ¬t.SelfContaining := by
  rw [Evaluator.formatting, hspec] at ht
  cases ht with
  | start => exact h.rising.not_selfContaining
  | inside ht => exact h.not_selfContaining_of_render hr hdepth hwf hv ht
  | reply hrender _ => cases (h.render_endless hdepth spec hv fuel).symm.trans hrender

end Formatting

/-- What the tree gives as its member `v`: a record with a member that is yet to be computed. -/
def firstRecord : Value where
  payload := .record 3
  location := .unknown
  path := "$.v.[f]"

def maker : Function where
  params := []
  named := []
  body := bodyExpr
  scope := 1
  name := "f"

/-- The store in which the tree has given it. -/
def opened : Store where
  cells := #[
    { task := .evaluate makerExpr 1 "$.f"
      progress := .finished ⟨.function maker, .unknown, "$.f"⟩
      location := .unknown
      path := "$.f" },
    { task := .evaluate callExpr 1 "$.v"
      progress := .finished firstRecord
      location := .unknown
      path := "$.v" },
    .suspended (.evaluate callExpr 3 "$.v.[f].next") .unknown "$.v.[f].next"]
  records := #[
    { enclosing := [] },
    { members := #[("f", ⟨.unknown, 0⟩), ("v", ⟨.unknown, 1⟩)], enclosing := [0] },
    { enclosing := [1, 0] },
    { members := #[("next", ⟨.unknown, 2⟩)], enclosing := [2, 1, 0] }]

theorem evaluateMember_v :
    ({} : Evaluator).evaluateMember 9 treeExpr "v" {} = .value firstRecord opened :=
  rfl

theorem opened_given : ({} : Evaluator).Gives treeExpr {} firstRecord opened :=
  .inr ⟨"v", 9, evaluateMember_v⟩

theorem opened_knows : Knows 1 opened ⟨.unknown, 0⟩ :=
  ⟨by decide, rfl, by decide, _, maker, rfl, rfl, rfl, rfl, rfl, rfl⟩

theorem opened_opens : Opens 1 3 opened ⟨.unknown, 2⟩ :=
  ⟨rfl, ⟨[2], [0], rfl, by decide⟩, rfl, "$.v.[f].next", rfl⟩

theorem opened_rising : opened.Rising where
  array c u hu a ha := by
    match c with
    | 0 | 1 => cases hu; cases ha
    | 2 => cases hu
    | c + 3 =>
      rw [Store.cell_of_size_le (by simp [opened])] at hu
      cases hu
      cases ha
  record r p hp u hu r' hr' := by
    match r with
    | 0 | 2 => exact absurd hp (Array.not_mem_empty p)
    | 1 =>
      obtain rfl | rfl : p = ("f", ⟨.unknown, 0⟩) ∨ p = ("v", ⟨.unknown, 1⟩) := by
        simpa [Store.record, opened] using hp
      · cases hu
        cases hr'
      · cases hu
        cases hr'
        decide
    | 3 =>
      obtain rfl : p = ("next", ⟨.unknown, 2⟩) := by simpa [Store.record, opened] using hp
      cases hu
    | r + 4 => exact absurd hp (Store.not_mem_members (by simp [opened]) p)

theorem opened_unfolds : Unfolds 1 3 opened ⟨.unknown, 2⟩ ⟨.unknown, 0⟩ :=
  ⟨opened_opens, opened_knows, opened_rising⟩

theorem opened_endless (fuel : Nat) :
    ({} : Evaluator).formatValue fuel firstRecord "" opened = .exhausted :=
  opened_unfolds.formatValue_endless (by decide) rfl rfl fuel

theorem opened_acyclic {fuel : Nat} {t : Store}
    (h : (Evaluator.formatting firstRecord "").Passes (({} : Evaluator).carryOut fuel 0)
      (({} : Evaluator).Passes fuel 0) opened t) : ¬t.SelfContaining :=
  have hwf := (opened_given.kept Registry.standard_sound Store.wellFormed_empty).1
  opened_unfolds.not_selfContaining_of_formatting (by decide) rfl rfl Registry.standard_sound hwf h

end Unfolding

namespace Session

/-- Suppose that no record or array is inside of itself while a value that a tree gave is formatted.
    Then formatting comes to an end, with a text or an error, unless one of two things goes on for
    ever: tying together the objects of one network, of which ever more are visited, or descending
    to ever new records and arrays, each inside of the one before. -/
theorem formatting_ends_iff {ev : Evaluator} (hev : ev.registry = .standard)
    {past events : List Event} {s t u : Store} {root : Expr} {v : Value}
    (hs : Proceeds .standard {} past s) (hv : ev.Gives root s v t)
    (hu : Proceeds .standard t events u) (how : String)
    (hacyclic : ∀ fuel w,
      (Evaluator.formatting v how).Passes (ev.carryOut fuel 0) (ev.Passes fuel 0) u w →
        ¬w.SelfContaining) :
    (∃ fuel, ev.formatValue fuel v how u ≠ .exhausted) ↔
      ∀ chain, ev.Takes (Evaluator.formatting v how) u (chain 0) →
        ¬ev.EndlessWalk chain ∧ ¬ev.EndlessDescent chain := by
  have hsound : ev.registry.Sound := hev ▸ Registry.standard_sound
  have hwfs := (hs.keeps Registry.standard_sound Store.wellFormed_empty).1
  obtain ⟨hwft, hvt⟩ := hv.kept hsound hwfs
  obtain ⟨hwf, hgrows⟩ := hu.keeps Registry.standard_sound hwft
  have hvalid : v.Valid u := hvt.mono hgrows.covers
  have hformats : (Evaluator.formatting v how).Ensures u.records.size u fun _ _ _ => True :=
    .check fun spec _ => Program.render_ensures spec hvalid
  refine (ev.run_ends_iff (Evaluator.formatting v how) u).trans ?_
  refine forall_congr' fun chain => forall_congr' fun htakes =>
    and_congr_right fun _ => not_congr ?_
  refine ⟨fun htext => ?_, Evaluator.EndlessDescent.endlessText⟩
  refine htext.endlessDescent hsound (htakes.good hsound hformats hwf) fun i => ?_
  obtain ⟨fuel, c, next, w, hreach, hfirst⟩ := htakes
  obtain ⟨fuel', hpasses⟩ := Evaluator.Takes.passes
    ⟨fuel, c, next, w, hreach, hfirst.trans (htext.isChain.reflTransGen i)⟩
  exact hacyclic fuel' _ hpasses

/-- The record that the tree gives is formatted by an endless walk or by an endless descent. -/
theorem formatting_ends_iff_unfolding :
    ∃ chain, ({} : Evaluator).Takes (Evaluator.formatting Unfolding.firstRecord "")
        Unfolding.opened (chain 0) ∧
      (({} : Evaluator).EndlessWalk chain ∨ ({} : Evaluator).EndlessDescent chain) := by
  by_contra hnone
  have hends := formatting_ends_iff rfl .start Unfolding.opened_given .start "" fun _ _ =>
    Unfolding.opened_acyclic
  obtain ⟨fuel, hfuel⟩ := hends.2 fun chain htakes =>
    not_or.1 fun hchain => hnone ⟨chain, htakes, hchain⟩
  exact hfuel (Unfolding.opened_endless fuel)

end Session

/-- What a tree gives need not have a text, although no record is ever inside of itself. -/
theorem Unfolding.formatting_may_not_end :
    ∃ v s, ({} : Evaluator).evaluateMember 9 treeExpr "v" {} = .value v s ∧
      (∀ fuel t, (Evaluator.formatting v "").Passes (({} : Evaluator).carryOut fuel 0)
        (({} : Evaluator).Passes fuel 0) s t → ¬t.SelfContaining) ∧
      ∀ fuel, ({} : Evaluator).formatValue fuel v "" s = .exhausted :=
  ⟨firstRecord, opened, evaluateMember_v, fun _ _ => opened_acyclic, opened_endless⟩

end NetDesc
