import NetDesc.Proofs.Endless.Delays

namespace NetDesc

namespace SelfRecord

/-- A record of what `a` stands for. -/
def selfExpr : Expr :=
  .ofMembers [.ofName "b" (.ofName "a")]

def printExpr : Expr :=
  .instantiate "PrintAction" (.ofMembers [.ofName "what" (.ofName "a")])

/-- A record that is its own member, and an action that prints it. -/
def treeExpr : Expr :=
  .ofMembers [.ofName "a" selfExpr, .ofName "p" printExpr]

variable {ev : Evaluator} {depth : Nat} {home r : RecordId} {s : Store} {m : Member}

/-- A record is not rendered without its member. -/
theorem render_exhausted {spec : FormatSpec} {v : Value} {fuel : Nat} {name : String}
    {P : Store → Value → Prop} (hv : v.payload = .record r)
    (hmembers : (s.record r).members.toList = [(name, m)])
    (hforce : (Program.force m.cell).Ends ev depth s P False)
    (h : ∀ t w, P t w → ev.carryOut fuel depth (.render spec w) t = .exhausted) :
    ev.carryOut (fuel + 1) depth (.render spec v) s = .exhausted := by
  change (Render.value spec v).run (ev.carryOut fuel depth) s = _
  have htexts : (Render.members spec #[] [(name, m)]).run (ev.carryOut fuel depth) s =
      .exhausted := by
    refine hforce.run_bind fun t w hw => ?_
    have hrender : (Program.render spec w).run (ev.carryOut fuel depth) t = .exhausted :=
      (Program.run_call _ _ t).trans (h t w hw)
    rw [Program.run_bind, hrender]
    rfl
  rw [Render.value, hv]
  change ((Render.members spec #[] (s.record r).members.toList) >>= _).run _ s = _
  rw [hmembers, Program.run_bind, htexts]
  rfl

/-- The member of the record `r` has been computed and is `r`. The record is a value like any
    other, but it has no text: each rendering leads to another one. -/
structure Closed (r : RecordId) (s : Store) : Prop where
  member : ∃ name m v, (s.record r).members.toList = [(name, m)] ∧
    (s.cell m.cell).progress = .finished v ∧ v.payload = .record r

theorem Closed.render_endless (h : Closed r s) (spec : FormatSpec) {v : Value}
    (hv : v.payload = .record r) : ev.Endless ⟨depth, .render spec v, s⟩ := by
  obtain ⟨name, m, w, hmembers, hw, hpayload⟩ := h.member
  intro fuel
  induction fuel generalizing v with
  | zero => exact ev.carryOut_zero depth s _
  | succ fuel ih =>
    refine render_exhausted hv hmembers
      (.force_finished (P := fun t x => t = s ∧ x.payload = .record r) hw ⟨rfl, hpayload⟩) ?_
    rintro _ x ⟨rfl, hx⟩
    exact ih hx

/-- The member of the record `r` is yet to be computed, and will be `r`: in the record `home`, where
    it is looked up, `a` has been computed and is `r`. -/
structure Closing (home r : RecordId) (s : Store) (m : Member) : Prop where
  members : (s.record r).members.toList = [("b", m)]
  enclosing : ∃ rest, (s.record r).enclosing = home :: rest
  pending : (s.cell m.cell).progress = .pending
  task : ∃ path, (s.cell m.cell).task = .evaluate (.ofName "a") r path
  found : ∃ first v, (s.record home).find? "a" = some first ∧
    (s.cell first.cell).progress = .finished v ∧ v.payload = .record r

/-- Computing the member gives the record. -/
theorem Closing.force_ends (h : Closing home r s m) (hdepth : depth < ev.maxDepth) :
    (Program.force m.cell).Ends ev depth s (fun t v => Closed r t ∧ v.payload = .record r)
      False := by
  obtain ⟨rest, henclosing⟩ := h.enclosing
  obtain ⟨path, htask⟩ := h.task
  obtain ⟨first, v, hfirst, hv, hpayload⟩ := h.found
  have hnone : (s.record r).find? "a" = none :=
    Record.find?_eq_none_of_not_mem (by simp [Record.names, h.members])
  have hne : m.cell ≠ first.cell := by
    intro heq
    rw [← heq, h.pending] at hv
    cases hv
  refine .force_pending h.pending ?_
  rw [htask]
  have hfound : (s.setProgress m.cell .running).find? r "a" = some first :=
    Store.find?_outside henclosing hnone hfirst
  have hv' : ((s.setProgress m.cell .running).cell first.cell).progress = .finished v := by
    rw [Store.setProgress_cell_of_ne hne, hv]
  refine .evaluate hdepth (.lookup hfound _ (.force_finished hv' ⟨⟨"b", m, v, h.members, ?_,
    hpayload⟩, hpayload⟩))
  rw [Store.setProgress_cell_self (by simpa using Store.lt_of_pending h.pending)]

/-- Other computations may end. -/
theorem Closing.setProgress (h : Closing home r s m) {c : CellId} (hne : c ≠ m.cell)
    (hc : (s.cell c).progress = .running) (p : Progress) :
    Closing home r (s.setProgress c p) m := by
  obtain ⟨first, v, hfirst, hv, hpayload⟩ := h.found
  have hne' : c ≠ first.cell := by
    rintro rfl
    rw [hc] at hv
    cases hv
  refine ⟨h.members, h.enclosing, ?_, ?_, first, v, hfirst, ?_, hpayload⟩
  · rw [Store.setProgress_cell_of_ne hne, h.pending]
  · rw [Store.setProgress_cell_of_ne hne]
    exact h.task
  · rw [Store.setProgress_cell_of_ne hne', hv]

theorem Closing.render_endless (h : Closing home r s m) (hdepth : depth < ev.maxDepth)
    (spec : FormatSpec) {v : Value} (hv : v.payload = .record r) :
    ev.Endless ⟨depth, .render spec v, s⟩ := by
  intro fuel
  cases fuel with
  | zero => exact ev.carryOut_zero depth s _
  | succ fuel =>
    refine render_exhausted hv h.members (h.force_ends hdepth) ?_
    rintro t w ⟨ht, hw⟩
    exact ht.render_endless spec hw fuel

theorem holds_later {path : String} {old : Nat} {b : Binding} {t : Store}
    (h : s.Holds r path old b m) (hst : s.Later (fun _ => False) t) (hr : r < s.records.size) :
    t.Holds r path old b m where
  found := by rw [hst.record r hr, h.found]
  new := h.new
  inside := Nat.lt_of_lt_of_le h.inside hst.cells
  cell := by rw [hst.unchanged h.inside id, h.cell]

/-- Evaluating `a` gives a record whose member is yet to be computed. -/
theorem evaluate_ends {fields : RecordId} {path : String} {first : Member} {inside : String}
    {old : Nat} {rest : List RecordId} (hdepth : depth + 1 < ev.maxDepth)
    (hhome : home < s.records.size) (hfirst : s.Holds home inside old (.ofName "a" selfExpr) first)
    (henclosing : (s.record fields).enclosing = home :: rest)
    (hnone : (s.record fields).find? "a" = none) :
    (Program.evaluate (.ofName "a") fields path).Ends ev depth s (fun t v =>
      s.Later (fun _ => True) t ∧ ∃ r m, v.payload = .record r ∧ s.cells.size ≤ m.cell ∧
        Closing home r t m) False := by
  refine .evaluate (by omega) (.lookup (Store.find?_outside henclosing hnone hfirst.found) _ ?_)
  refine .force_pending hfirst.pending ?_
  rw [hfirst.task]
  refine (Evaluator.evaluate_record_ends rfl (by decide) hdepth _ home _).imp ?_ id
  rintro t v ⟨r, hv, hlays⟩
  obtain ⟨m, hm⟩ := hlays.holds (.ofName "b" (.ofName "a")) (by simp)
  have hlater := hlays.later (.refl (fun _ => False) _)
  have hlt : first.cell < t.cells.size :=
    Nat.lt_of_lt_of_le (by simpa using hfirst.inside) hlater.cells
  have hold : s.cells.size ≤ m.cell := by simpa using hm.new
  have hne : first.cell ≠ m.cell := Nat.ne_of_lt (Nat.lt_of_lt_of_le hfirst.inside hold)
  have hm' := hm.setProgress hne (.finished v)
  refine ⟨hlater.weaken.settle hfirst.pending trivial v, r, m, hv, hold, hlays.members_eq hm,
    ⟨_, hlays.enclosing⟩, hm'.pending, ⟨_, hm'.task⟩, first, v, ?_, ?_, hv⟩
  · change (t.record home).find? "a" = some first
    rw [hlater.record home hhome]
    exact hfirst.found
  · rw [Store.setProgress_cell_self hlt]

/-- Instantiating the action never ends. -/
theorem print_endless {path inside : String} {first : Member} {old : Nat}
    (hdepth : depth + 2 < ev.maxDepth) (hev : ev.registry = .standard)
    (hhome : home < s.records.size)
    (hfirst : s.Holds home inside old (.ofName "a" selfExpr) first) :
    (Program.evaluate printExpr home path).Endless ev depth s := by
  refine .evaluate (by omega) ?_
  refine .check (a := PrintAction.runtimeType) (by rw [hev]; rfl) ?_
  refine .after (Evaluator.evaluate_record_ends rfl (by decide) (by omega) s home _) ?_
  rintro t v ⟨fields, hv, hlays⟩
  have hrecord : v.asRecord = .ok fields := by rw [Value.asRecord, hv]
  refine .check hrecord (.bind ?_ _)
  obtain ⟨m, hm⟩ := hlays.holds (.ofName "what" (.ofName "a")) (by simp)
  have hlater : s.Later (fun _ => False) t := hlays.later (.refl _ s)
  have hnone : (t.record fields).find? "a" = none := by
    refine Record.find?_eq_none_of_not_mem ?_
    rw [hlays.names]
    decide
  have hne : m.cell ≠ first.cell := (Nat.ne_of_lt (Nat.lt_of_lt_of_le hfirst.inside hm.new)).symm
  have hfirst' := (holds_later hfirst hlater hhome).setProgress hne .running
  have hwhat : (Program.field fields "what").Ends ev (depth + 1) t (fun u v => ∃ r m,
      v.payload = .record r ∧ Closing home r u m) False := by
    refine .field hm.found (.force_pending hm.pending ?_)
    rw [hm.task]
    refine (evaluate_ends (s := t.setProgress m.cell .running) hdepth
      (Nat.lt_of_lt_of_le hhome hlater.records) hfirst' hlays.enclosing hnone).imp ?_ id
    rintro u v ⟨htu, r, m', hv, hnew, hclosing⟩
    have hinside : m.cell < (t.setProgress m.cell .running).cells.size := by simpa using hm.inside
    have hrunning : (u.cell m.cell).progress = .running :=
      (htu.running_iff hinside).2 (Store.setProgress_running_iff.2 (.inl ⟨rfl, hm.inside⟩))
    have hne' : m.cell ≠ m'.cell := Nat.ne_of_lt (Nat.lt_of_lt_of_le hinside hnew)
    exact ⟨r, m', hv, hclosing.setProgress hne' hrunning _⟩
  refine .after hwhat ?_
  rintro u v ⟨r, m', hv, hclosing⟩
  refine .bind ?_ _
  rw [PrintAction.textOf, hv]
  exact .call (hclosing.render_endless (by omega) _ hv)

/-- Whatever the limits are, the member `p` is never given. -/
theorem evaluateMember_endless (hev : ev.registry = .standard) (hdepth : 3 ≤ ev.maxDepth)
    (fuel : Nat) (s : Store) : ev.evaluateMember fuel treeExpr "p" s = .exhausted := by
  refine Evaluator.evaluateMember_endless rfl (by decide) (by omega) (b := .ofName "p" printExpr)
    (by simp) ?_ fuel
  intro outer home path m t u hlays hm
  obtain ⟨first, hfirst⟩ := hlays.holds (.ofName "a" selfExpr) (by simp)
  have hne : m.cell ≠ first.cell := hm.cell_ne hfirst (by rintro ⟨⟩)
  exact print_endless hdepth hev hlays.inside (hfirst.setProgress hne .running)

end SelfRecord

namespace Evaluator

/-- With the usual limits, too, neither tying the objects of a network together nor formatting a
    value need come to an end. -/
theorem evaluation_may_not_end :
    (∀ fuel, ({} : Evaluator).evaluateMember fuel DelayChain.treeExpr "net" {} = .exhausted) ∧
      ∀ fuel, ({} : Evaluator).evaluateMember fuel SelfRecord.treeExpr "p" {} = .exhausted :=
  ⟨fun fuel => DelayChain.evaluateMember_endless rfl (by decide) fuel {},
    fun fuel => SelfRecord.evaluateMember_endless rfl (by decide) fuel {}⟩

end Evaluator

end NetDesc
