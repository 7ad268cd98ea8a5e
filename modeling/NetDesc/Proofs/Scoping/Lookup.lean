import NetDesc.Expr.Build
import NetDesc.Proofs.Scoping.Run
import NetDesc.Proofs.Session

namespace NetDesc

open Relation (ReflTransGen)

namespace Evaluator

/-- The call is carried out while a program is run from outside of any expression. -/
def CarriesOut (ev : Evaluator) (fuel : Nat) {α : Type} (p : Program α) (s : Store) (m : Moment) :
    Prop :=
  ∃ (c : Call) (next : c.Reply → Program α) (t : Store),
    p.Reaches (ev.carryOut fuel 0) s (.call c next) t ∧ ReflTransGen ev.LeadsTo ⟨fuel, 0, c, t⟩ m

/-- What may be done in an exploration, given the values that are known: members and elements are
    computed, values are rendered, graphs are tied. -/
inductive Explores (ev : Evaluator) (trees : Expr → Prop) (known : Value → Prop) :
    Program Value → Prop
  | tree {root : Expr} (hroot : trees root) : Explores ev trees known (ev.wholeTree root)
  | member {v : Value} (hv : known v) (name : String) (location : Location) :
    Explores ev trees known (Program.memberOf v name location)
  | element {v : Value} (hv : known v) {a : LazyArray} (ha : v.payload = .array a) (index : Int64)
      (location : Location) : Explores ev trees known (elementAt a index location)
  | text {v : Value} (hv : known v) (spec : FormatSpec) :
    Explores ev trees known do
      let _ ← Program.render spec v
      return v
  | graph {v : Value} (hv : known v) {o : Object} (ho : v.payload = .object o) :
    Explores ev trees known do
      let _ ← Program.tie [o] []
      return v

end Evaluator

/-- Trees are evaluated and what they give is explored, starting from nothing. All calls that were
    carried out until then are in `past`, and the values that were given are `known`. -/
inductive Exploration (ev : Evaluator) (trees : Expr → Prop) :
    (Moment → Prop) → (Value → Prop) → Store → Prop
  | start : Exploration ev trees (fun _ => False) (fun _ => False) {}
  | value {past : Moment → Prop} {known : Value → Prop} {s t : Store} {p : Program Value}
      {fuel : Nat} {v : Value} (h : Exploration ev trees past known s)
      (hp : ev.Explores trees known p) (hrun : ev.run fuel p s = .value v t) :
      Exploration ev trees (fun m => past m ∨ ev.CarriesOut fuel p s m) (fun w => known w ∨ w = v) t
  | error {past : Moment → Prop} {known : Value → Prop} {s t : Store} {p : Program Value}
      {fuel : Nat} {e : EvalError} (h : Exploration ev trees past known s)
      (hp : ev.Explores trees known p) (hrun : ev.run fuel p s = .error e t) :
      Exploration ev trees (fun m => past m ∨ ev.CarriesOut fuel p s m) known t

namespace Evaluator

variable {S : Scoping} {ev : Evaluator} {s : Store}

/-- A whole tree stands in a scope of its own, which is empty. -/
theorem wholeTree_maintains {carryOut : (c : Call) → Store → Outcome c.Reply} {base : Nat}
    {root : Expr} (hroot : S.trees root) :
    (ev.wholeTree root).Maintains S carryOut base s fun b t v => v.Placed S b t := by
  refine .bind (Program.newRecord_maintains none) ?_
  rintro b t scope - - ⟨rfl, -, hlt, hrecord⟩
  refine .call ?_ fun _ _ _ _ hanswer => hanswer
  exact ⟨root, [], hroot, .root, .outermost hlt hrecord⟩

namespace Explores

variable {known : Value → Prop} {p : Program Value}

theorem givesValue (hp : ev.Explores S.trees known p) (hknown : ∀ v, known v → v.Valid s)
    {base : Nat} : p.GivesValue base s := by
  cases hp with
  | tree hroot => exact ev.wholeTree_givesValue _
  | member hv name location => exact Program.memberOf_givesValue (hknown _ hv) name location
  | @element v hv a ha index location =>
    refine elementAt_givesValue ?_ index location
    simpa only [Value.Valid, ha, Payload.Valid] using hknown v hv
  | text hv spec =>
    refine .bind (Program.render_ensures spec (hknown _ hv)) fun _ _ _ _ hgrows _ _ => ?_
    exact .pure ((hknown _ hv).mono hgrows.covers)
  | @graph v hv o ho =>
    have hobject : o.Valid s := by simpa only [Value.Valid, ho, Payload.Valid] using hknown v hv
    refine .bind (Network.tie_ensures (by simpa using hobject)) fun _ _ _ _ hgrows _ _ => ?_
    exact .pure ((hknown _ hv).mono hgrows.covers)

theorem maintains (hp : ev.Explores S.trees known p) {base : Nat}
    (hknown : ∀ v, known v → v.Placed S base s)
    {carryOut : (c : Call) → Store → Outcome c.Reply} :
    p.Maintains S carryOut base s fun b t v => v.Placed S b t := by
  cases hp with
  | tree hroot => exact wholeTree_maintains hroot
  | member hv name location => exact Program.memberOf_maintains (hknown _ hv) name location
  | @element v hv a ha index location =>
    refine elementAt_maintains ?_ index location
    simpa only [Value.Placed, ha, Payload.Placed] using hknown v hv
  | text hv spec =>
    refine .bind (Program.render_maintains spec (hknown _ hv)) fun _ _ _ hext hle _ => ?_
    exact .pure ((hknown _ hv).later hext hle)
  | graph hv ho =>
    refine .bind (Network.tie_maintains _ _) fun _ _ _ hext hle _ => ?_
    exact .pure ((hknown _ hv).later hext hle)

variable (hsound : ev.registry.Sound) (hr : ev.registry.Places)

include hsound hr

/-- Calls inside of an operation are answered as they should be. -/
theorem answersSettled {fuel : Nat}
    (hdeclared : S.declaredOnly → ∀ m, ev.CarriesOut fuel p s m → ev.PassesDeclared m) :
    p.AnswersSettled S (ev.carryOut fuel 0) s := fun c next t h hgood =>
  carryOut_settles hsound hr fuel 0 c t hgood fun hd m hm =>
    hdeclared hd m ⟨c, next, t, h, hm⟩

/-- An operation that starts from placed values gives a placed value. -/
theorem ends (hp : ev.Explores S.trees known p) (hwf : s.WellFormed s.records.size)
    (hs : s.Settled S s.records.size)
    (hknown : ∀ v, known v → v.Valid s ∧ v.Placed S s.records.size s) {fuel : Nat}
    (hdeclared : S.declaredOnly → ∀ m, ev.CarriesOut fuel p s m → ev.PassesDeclared m) :
    (ev.run fuel p s).Kept s (fun t v => v.Valid t) ∧
      (ev.run fuel p s).Settles S fun t v => v.Placed S t.records.size t := by
  have hcalls := carryOut_promised hsound fuel 0
  have hgives : p.GivesValue s.records.size s := hp.givesValue fun v hv => (hknown v hv).1
  refine ⟨hgives.run hcalls hwf, Program.Maintains.run hcalls hwf hs hgives (.closed ?_) ?_⟩
  · exact hp.maintains fun v hv => (hknown v hv).2
  · exact answersSettled hsound hr hdeclared

end Explores

end Evaluator

namespace Exploration

variable {S : Scoping} {ev : Evaluator} {past : Moment → Prop} {known : Value → Prop} {s : Store}
  (hsound : ev.registry.Sound) (hr : ev.registry.Places)

include hsound hr

/-- An exploration leaves a settled store, and the values it has given are placed. -/
theorem settled (h : Exploration ev S.trees past known s)
    (hdeclared : S.declaredOnly → ∀ m, past m → ev.PassesDeclared m) :
    s.WellFormed s.records.size ∧ s.Settled S s.records.size ∧
      ∀ v, known v → v.Valid s ∧ v.Placed S s.records.size s := by
  induction h with
  | start =>
    refine ⟨Store.wellFormed_empty, ⟨Nat.le_refl _, ?_, ?_, ?_⟩, ?_⟩
    · rintro c v ⟨⟩
      trivial
    · rintro n c ⟨⟩
    · exact fun n hn => absurd hn (Nat.not_lt_zero n)
    · rintro v ⟨⟩
  | @value past known s t p fuel v _ hp hrun ih =>
    obtain ⟨hwf, hsettled, hknown⟩ := ih fun hd m hm => hdeclared hd m (.inl hm)
    obtain ⟨hkept, hends⟩ := hp.ends hsound hr hwf hsettled hknown fun hd m hm =>
      hdeclared hd m (.inr hm)
    rw [hrun] at hkept hends
    obtain ⟨hwf', hgrows, hvalid⟩ := hkept
    refine ⟨hwf', hends.1, ?_⟩
    rintro w (hw | rfl)
    · obtain ⟨hw, hplaced⟩ := hknown w hw
      exact ⟨hw.mono hgrows.covers, hplaced.later hgrows.toExtends hgrows.covers.records⟩
    · exact ⟨hvalid, hends.2⟩
  | @error past known s t p fuel e _ hp hrun ih =>
    obtain ⟨hwf, hsettled, hknown⟩ := ih fun hd m hm => hdeclared hd m (.inl hm)
    obtain ⟨hkept, hends⟩ := hp.ends hsound hr hwf hsettled hknown fun hd m hm =>
      hdeclared hd m (.inr hm)
    rw [hrun] at hkept hends
    obtain ⟨hwf', hgrows⟩ := hkept
    refine ⟨hwf', hends, fun w hw => ?_⟩
    obtain ⟨hw, hplaced⟩ := hknown w hw
    exact ⟨hw.mono hgrows.covers, hplaced.later hgrows.toExtends hgrows.covers.records⟩

/-- Every call that is carried out in an exploration is good. -/
theorem good (h : Exploration ev S.trees past known s) {p : Program Value}
    (hp : ev.Explores S.trees known p) {fuel : Nat} {m : Moment} (hm : ev.CarriesOut fuel p s m)
    (hdeclared : S.declaredOnly →
      ∀ m, past m ∨ ev.CarriesOut fuel p s m → ev.PassesDeclared m) : m.call.Good S m.store := by
  obtain ⟨hwf, hsettled, hknown⟩ := h.settled hsound hr fun hd m hm => hdeclared hd m (.inl hm)
  obtain ⟨c, next, t, hreaches, hm⟩ := hm
  have hgives : p.GivesValue s.records.size s := hp.givesValue fun v hv => (hknown v hv).1
  have hgood := Program.Keeps.good (Evaluator.carryOut_promised hsound fuel 0) hreaches
    (Evaluator.Explores.answersSettled hsound hr fun hd m hm => hdeclared hd m (.inr hm)) hwf
    hsettled (hgives hwf) (hp.maintains (fun v hv => (hknown v hv).2) hsettled)
  exact Evaluator.good_of_reflTransGen hsound hr hm hgood fun hd m' hm' =>
    hdeclared hd m' (.inr ⟨c, next, t, hreaches, hm'⟩)

/-- So is every call that was carried out before. -/
theorem good_of_past (h : Exploration ev S.trees past known s)
    (hdeclared : S.declaredOnly → ∀ m, past m → ev.PassesDeclared m) {m : Moment} (hm : past m) :
    m.call.Good S m.store := by
  induction h with
  | start => cases hm
  | value h hp _ ih =>
    obtain hm | hm := hm
    · exact ih (fun hd m hm => hdeclared hd m (.inl hm)) hm
    · exact h.good hsound hr hp hm hdeclared
  | error h hp _ ih =>
    obtain hm | hm := hm
    · exact ih (fun hd m hm => hdeclared hd m (.inl hm)) hm
    · exact h.good hsound hr hp hm hdeclared

end Exploration

/-- Every identifier that is evaluated in an exploration of closed trees is found, so evaluating it
    is forcing the cell that it is found with. If no call of the exploration passes a named argument
    that the function does not declare, the cell is the one that the record of the nearest binder
    has for the name, among those that declare it. The scope has one record for each of the binders
    that the identifier stands in. -/
theorem Exploration.identifiers_resolve {ev : Evaluator} (hev : ev.registry = .standard)
    {trees : Expr → Prop} (hclosed : ∀ root, trees root → root.Closed)
    {past : Moment → Prop} {known : Value → Prop} {s : Store}
    (h : Exploration ev trees past known s) {p : Program Value} (hp : ev.Explores trees known p)
    {fuel fuel' depth : Nat} {name : String} {location : Location} {scope : RecordId}
    {path : String} {t : Store}
    (hm : ev.CarriesOut fuel p s
      ⟨fuel' + 1, depth, .perform (.evaluate (.mk (.var name) location) scope path), t⟩) :
    (∃ found, t.find? scope name = some found ∧ (depth < ev.maxDepth →
      (ev.carryOut (fuel' + 1) depth
          (.perform (.evaluate (.mk (.var name) location) scope path)) t : Outcome Value) =
        (ev.carryOut fuel' (depth + 1) (.force found.cell) t : Outcome Value).through location)) ∧
    ((∀ m, past m ∨ ev.CarriesOut fuel p s m → ev.PassesDeclared m) →
      ∃ root layers, trees root ∧
        root.Occurs (layers.map (·.binder)) (.mk (.var name) location) ∧
        t.Nested ⟨trees, True⟩ root t.records.size scope layers ∧
        ∃ layer found outer, layers.find? (name ∈ ·.binder.names) = some layer ∧
          t.find? scope name = some found ∧ (t.record layer.record).find? name = some found ∧
          layer.binder.Instance ⟨trees, True⟩ t layer.record outer ∧
          layer.binder.Fills layer.record outer name (t.cell found.cell).task) := by
  have hsound : ev.registry.Sound := hev ▸ Registry.standard_sound
  have hr : ev.registry.Places := hev ▸ Registry.standard_places
  have hbound {root : Expr} {layers : List Layer} (hroot : trees root)
      (hoccurs : root.Occurs (layers.map (·.binder)) (.mk (.var name) location)) :
      ∃ layer ∈ layers, name ∈ layer.binder.names := by
    obtain ⟨b, hb, hname⟩ := hclosed root hroot _ name location hoccurs
    obtain ⟨layer, hlayer, rfl⟩ := List.mem_map.1 hb
    exact ⟨layer, hlayer, hname⟩
  constructor
  · have hgood := Exploration.good (S := ⟨trees, False⟩) hsound hr h hp hm (by rintro ⟨⟩)
    obtain ⟨root, layers, hroot, hoccurs, hnested⟩ := hgood.placed
    obtain ⟨found, hfound⟩ := hnested.find?_isSome (hbound hroot hoccurs)
    refine ⟨found, hfound, fun hdepth => ?_⟩
    rw [Evaluator.carryOut_evaluate ev fuel' t hdepth]
    exact congrArg (Outcome.through · location) (Program.run_lookup location hfound)
  · intro hdeclared
    have hgood := Exploration.good (S := ⟨trees, True⟩) hsound hr h hp hm fun _ => hdeclared
    obtain ⟨root, layers, hroot, hoccurs, hnested⟩ := hgood.placed
    refine ⟨root, layers, hroot, hoccurs, hnested, ?_⟩
    obtain ⟨layer, hlayer⟩ : ∃ layer, layers.find? (name ∈ ·.binder.names) = some layer := by
      rw [← Option.isSome_iff_exists, List.find?_isSome]
      obtain ⟨layer, hlayer, hname⟩ := hbound hroot hoccurs
      exact ⟨layer, hlayer, by simpa using hname⟩
    obtain ⟨found, outer, hfind, hmember, -, hrest⟩ := hnested.find?_nearest trivial hlayer
    exact ⟨layer, found, outer, hlayer, hfind, hmember, hrest⟩

/-- A tree in which a name is declared twice, and used within both declarations. -/
def shadowingExpr : Expr :=
  .ofMembers [.ofName "a" (.ofText "x"),
    .ofName "r" (.ofMembers [.ofName "a" (.ofText "y"), .ofName "b" (.ofName "a")])]

theorem shadowingExpr_closed : shadowingExpr.Closed :=
  Expr.closed_of_boundIn (by decide)

/-- Nothing is called in the tree. -/
theorem shadowingExpr_kind_ne_apply {ctx : List Binder} {e : Expr}
    (h : shadowingExpr.Occurs ctx e) (func : Expr) (args : ArgList) :
    e.kind ≠ .apply func args := by
  have hparts : e = shadowingExpr ∨
      e = .ofMembers [.ofName "a" (.ofText "y"), .ofName "b" (.ofName "a")] ∨
      (∃ x, e = .ofText x) ∨ e = .ofName "a" := by
    induction h with
    | root => exact .inl rfl
    | part _ hpart ih =>
      obtain rfl | rfl | ⟨x, rfl⟩ | rfl := ih <;>
        simp [shadowingExpr, Expr.ofMembers, Expr.ofKind, Expr.ofText, Expr.ofName, Expr.kind,
          ExprKind.parts, Binding.ofName, Binding.value] at hpart ⊢
      all_goals grind
  obtain rfl | rfl | ⟨x, rfl⟩ | rfl := hparts <;> rintro ⟨⟩

/-- The tree and its member `r` can be evaluated, and the member `b` of that is the inner use. -/
theorem shadowingExpr_explored :
    ∃ v s w t, ({} : Evaluator).run 9 (({} : Evaluator).wholeTree shadowingExpr) {} = .value v s ∧
      ({} : Evaluator).run 9 (Program.memberOf v "r" .unknown) s = .value w t ∧
      w.payload = .record 2 ∧ t.find? 2 "b" = some ⟨.unknown, 3⟩ ∧
      (t.cell 3).progress = .pending ∧
      (∃ path, (t.cell 3).task = .evaluate (.ofName "a") 2 path) ∧
      t.find? 2 "a" = some ⟨.unknown, 2⟩ ∧
      ∃ path, (t.cell 2).task = .evaluate (.ofText "y") 2 path :=
  ⟨_, _, _, _, rfl, rfl, rfl, rfl, rfl, ⟨_, rfl⟩, rfl, _, rfl⟩

/-- The inner declaration is found from the inner use. -/
theorem Exploration.identifiers_resolve_shadowed :
    ∃ (t : Store) (found : Member) (layers : List Layer) (layer : Layer),
      t.find? 2 "a" = some found ∧
      (∃ path, (t.cell found.cell).task = .evaluate (.ofText "y") 2 path) ∧
      shadowingExpr.Occurs (layers.map (·.binder)) (.ofName "a") ∧
      layers.find? ("a" ∈ ·.binder.names) = some layer ∧
      (t.record layer.record).find? "a" = some found := by
  obtain ⟨v, s, w, t, hv, hw, hrecord, hb, hpending, ⟨path, htask⟩, ha, path', htext⟩ :=
    shadowingExpr_explored
  have htree : Evaluator.Explores {} (· = shadowingExpr) (fun _ => False)
      (Evaluator.wholeTree {} shadowingExpr) := .tree rfl
  obtain ⟨past, known, hknown, hpast⟩ : ∃ (past : Moment → Prop) (known : Value → Prop),
      known w ∧ Exploration {} (· = shadowingExpr) past known t :=
    ⟨_, _, Or.inr rfl, (Exploration.start.value htree hv).value (.member (.inr rfl) "r" _) hw⟩
  have hinner : Evaluator.Explores {} (· = shadowingExpr) known
      (Program.memberOf w "b" .unknown) := .member hknown "b" .unknown
  have hm : Evaluator.CarriesOut {} 9 (Program.memberOf w "b" .unknown) t
      ⟨8, 0, .perform (.evaluate (.ofName "a") 2 path), t.setProgress 3 .running⟩ := by
    refine ⟨.force 3, .done, t, ?_, .single ?_⟩
    · obtain ⟨payload, location, path⟩ := w
      cases hrecord
      refine .access ?_
      change Program.Reaches _ (Program.forceFound ((t.find? 2 "b").map (·.cell)) _) t _ t
      rw [hb]
      exact .start _ _
    · exact htask ▸ .force hpending
  have hclosed : ∀ root, root = shadowingExpr → root.Closed := by
    rintro _ rfl
    exact shadowingExpr_closed
  have hdeclared : ∀ m, past m ∨ Evaluator.CarriesOut {} 9 (Program.memberOf w "b" .unknown) t m →
      Evaluator.PassesDeclared {} m := by
    intro m hm fuel func args location scope path _ hcall
    have hgood : m.call.Good ⟨(· = shadowingExpr), False⟩ m.store := by
      obtain hm | hm := hm
      · exact hpast.good_of_past Registry.standard_sound Registry.standard_places (by rintro ⟨⟩) hm
      · exact hpast.good Registry.standard_sound Registry.standard_places hinner hm (by rintro ⟨⟩)
    have hplaced := hgood.placed
    rw [hcall] at hplaced
    obtain ⟨root, layers, rfl, hoccurs, -⟩ := hplaced
    exact absurd rfl (shadowingExpr_kind_ne_apply hoccurs func args)
  obtain ⟨root, layers, rfl, hoccurs, -, layer, found, outer, hlayer, hfound, hmember, -⟩ :=
    (hpast.identifiers_resolve rfl hclosed hinner hm).2 hdeclared
  refine ⟨_, found, layers, layer, hfound, ⟨path', ?_⟩, hoccurs, hlayer, hmember⟩
  obtain rfl : ⟨.unknown, 2⟩ = found := Option.some.inj (ha.symm.trans hfound)
  rw [Store.setProgress_cell, if_neg (by simp)]
  exact htext

end NetDesc
