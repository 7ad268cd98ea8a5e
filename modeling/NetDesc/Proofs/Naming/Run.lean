import NetDesc.Proofs.Naming.Evaluator
import NetDesc.Session

namespace NetDesc

namespace Evaluator

/-- The computation of a task, with the value that carrying it out gives. -/
def computation (ev : Evaluator) (fuel depth : Nat) (task : Task) (s : Store) : Computation where
  task := task
  value? := (ev.carryOut fuel depth (.perform task) s).value?.map Prod.fst

/-- The computations that are begun while a call is carried out, in this order. -/
def performed (ev : Evaluator) : (fuel depth : Nat) → Call → Store → List Computation
  | 0, _, _, _ => []
  | fuel + 1, depth, .perform (.evaluate e scope path), s =>
    if depth < ev.maxDepth then
      ev.computation (fuel + 1) depth (.evaluate e scope path) s ::
        (ev.taskProgram (.evaluate e scope path)).performed (ev.carryOut fuel (depth + 1))
          (ev.performed fuel (depth + 1)) s
    else
      []
  | fuel + 1, depth, .perform (.element initializer index path location), s =>
    ev.computation (fuel + 1) depth (.element initializer index path location) s ::
      (ev.taskProgram (.element initializer index path location)).performed
        (ev.carryOut fuel depth) (ev.performed fuel depth) s
  | _ + 1, _, .perform (.constant _), _ => []
  | fuel + 1, depth, .force cell, s =>
    match (s.cell cell).progress with
    | .pending =>
      ev.performed fuel depth (.perform (s.cell cell).task) (s.setProgress cell .running)
    | _ => []
  | fuel + 1, depth, .render spec v, s =>
    (Render.value spec v).performed (ev.carryOut fuel depth) (ev.performed fuel depth) s
  | fuel + 1, depth, .tie work visited, s =>
    (Network.tieStep work visited).performed (ev.carryOut fuel depth) (ev.performed fuel depth) s

section Equations

variable (ev : Evaluator) (fuel depth : Nat) (s : Store)

theorem performed_evaluate {depth : Nat} (h : depth < ev.maxDepth) (e : Expr) (scope : RecordId)
    (path : String) :
    ev.performed (fuel + 1) depth (.perform (.evaluate e scope path)) s =
      ev.computation (fuel + 1) depth (.evaluate e scope path) s ::
        (ev.evaluateKind e.kind e.location scope path).performed (ev.carryOut fuel (depth + 1))
          (ev.performed fuel (depth + 1)) s :=
  if_pos h

/-- A value that evaluating an expression gives is on the record. -/
theorem mem_performed_of_value {fuel depth : Nat} {e : Expr} {scope : RecordId} {path : String}
    {v : Value} {s t : Store}
    (h : ev.carryOut fuel depth (.perform (.evaluate e scope path)) s = .value v t) :
    ⟨.evaluate e scope path, some v⟩ ∈
      ev.performed fuel depth (.perform (.evaluate e scope path)) s := by
  cases fuel with
  | zero => cases h
  | succ fuel =>
    by_cases hdepth : depth < ev.maxDepth
    · rw [performed_evaluate ev fuel s hdepth, computation, h]
      exact .head _
    · rw [carryOut_evaluate_deep ev fuel s (Nat.not_lt.1 hdepth)] at h
      cases h

variable {s} {c : CellId}

theorem performed_force_pending (h : (s.cell c).progress = .pending) :
    ev.performed (fuel + 1) depth (.force c) s =
      ev.performed fuel depth (.perform (s.cell c).task) (s.setProgress c .running) := by
  simp only [performed, h]

end Equations

end Evaluator

variable {begun : List Computation} {w u : World} {tier : Tier} {names : Set String}

section Outcomes

variable {α : Type} {P : World → α → Prop} {started : Nat} {o : Outcome α}

theorem Outcome.Upholds.and_value {Q : α → Prop} {expected : EvalError → Store → Prop}
    (ho : o.Upholds begun w tier names started P expected) (hQ : ∀ a t, o = .value a t → Q a) :
    o.Upholds begun w tier names started (fun u a => P u a ∧ Q a) expected := by
  cases o with
  | value a t =>
    obtain ⟨u, hstore, hu, hlater, hspent, ha⟩ := ho
    exact ⟨u, hstore, hu, hlater, hspent, ha, hQ a t rfl⟩
  | error e t => exact ho
  | exhausted => trivial

theorem Outcome.Upholds.through
    (ho : o.Upholds begun w tier names started P fun _ _ => False) (location : Location) :
    (o.through location).Upholds begun w tier names started P fun _ _ => False := by
  cases o with
  | value a t => exact ho
  | error e t => exact ⟨ho.1, fun name hcause => ho.2 name (e.through_cause location ▸ hcause)⟩
  | exhausted => trivial

/-- A careful program that keeps names apart never ends with two nodes of one name. -/
theorem Program.Upholds.outcome {carryOut : (c : Call) → Store → Outcome c.Reply}
    {inside : Call → Store → List Computation} {p : Program α}
    (hp : p.Upholds begun carryOut inside w tier names P)
    (hcareful : p.Careful begun carryOut inside w tier) (hw : w.Sound begun)
    (hcurrent : w.Current tier)
    (hpermits : w.Permits begun (p.performed carryOut inside w.store)) :
    (p.run carryOut w.store).Upholds begun w tier names
      (networksStarted (p.performed carryOut inside w.store)) P fun _ _ => False := by
  have hend := (hp hw hcurrent hpermits).1
  cases hrun : p.run carryOut w.store with
  | value a t =>
    rw [hrun] at hend
    exact hend
  | error e t =>
    rw [hrun] at hend
    exact ⟨hend.1, fun name hcause =>
      hcareful hw hcurrent hpermits e t name (hend.2 name hcause) hcause⟩
  | exhausted => trivial

end Outcomes

namespace World

/-- What a network takes was held in reserve before. -/
theorem Later.of_start (hreserved : w.reserved = true)
    (h : w.start.Later begun tier (region "") u) :
    w.Later begun tier names u := by
  have hstart : w.Later begun tier (region "") w.start :=
    later_of_subset w.start_extends w.start_holds
  exact ((hstart.trans h).widen List.nil_suffix subset_rfl).of_held (a := .reserve)
    fun name hname => ⟨hreserved, rfl, hname⟩

/-- The names of the fields are free once the network has been started. -/
theorem Sound.start_clear (hw : w.Sound begun) (hreserved : w.reserved = true) (e : Expr)
    (scope : RecordId) : w.start.Clear begun tier e scope "" :=
  Open.clear fun _ hname => hw.free_start hreserved hname tier

/-- A cell that is being computed has let go of the names it held. -/
theorem Sound.free_running (hw : w.Sound begun) {c : CellId} {k : Tier} (hk : w.cell c = some k)
    (hpending : (w.store.cell c).progress = .pending) {name : String}
    (hname : name ∈ (w.store.cell c).task.names) :
    Free begun (w.withStore (w.store.setProgress c .running)) k name := by
  intro a l hheld
  have hne : a ≠ .cell c := by
    rintro rfl
    have hprogress := hheld.2.1
    change ((w.store.setProgress c .running).cell c).progress = .pending at hprogress
    rw [Store.setProgress_cell_self (hw.cell c k hk).1] at hprogress
    cases hprogress
  refine hw.apart a (.cell c) l k name hne ?_ ⟨hk, hpending, hname⟩
  cases a with
  | cell d =>
    have hd : c ≠ d := fun h => hne (congrArg Holder.cell h.symm)
    change _ ∧ ((w.store.setProgress c .running).cell d).progress = .pending ∧
      name ∈ ((w.store.setProgress c .running).cell d).task.names at hheld
    rwa [Store.setProgress_cell_of_ne hd] at hheld
  | _ => exact hheld

end World

namespace World.Permits

variable {c : Computation} {rest : List Computation} (h : w.Permits begun (c :: rest))

include h

theorem next (hplain : c.task.startsNetwork = false) : w.Permits begun rest where
  spare := by
    have hspare := h.spare
    rwa [networksStarted, List.countP_cons_of_neg (by simp [hplain])] at hspare
  begun other hother := h.begun other (.tail _ hother)

/-- The first network takes what was held in reserve, and there is no other. -/
theorem start (hstarts : c.task.startsNetwork = true) :
    w.reserved = true ∧ w.start.Permits begun rest := by
  have hspare := h.spare
  rw [networksStarted, List.countP_cons_of_pos (by exact hstarts)] at hspare
  have hreserved : w.reserved = true := by
    by_contra hnot
    simp [World.spare, hnot] at hspare
  rw [World.spare, if_pos hreserved] at hspare
  exact ⟨hreserved, Nat.le_trans (Nat.le_of_succ_le_succ hspare) (Nat.zero_le _),
    fun other hother => h.begun other (.tail _ hother)⟩

end World.Permits

section Tasks

variable {task : Task} (htask : task.Fits w tier)

include htask

/-- What fits a cell is ready to be computed once its names are free. -/
theorem Task.Fits.ready (hfree : ∀ name ∈ task.names, World.Free begun w tier name) :
    (Call.perform task).Ready begun w tier := by
  cases task with
  | evaluate e scope path => exact ⟨htask.1, htask.2.1, World.Open.clear hfree⟩
  | element f index path location => exact ⟨htask.1, htask.2.1, htask.2.2, hfree⟩
  | constant v => exact htask

/-- What a cell computes fits it. -/
theorem Task.Fits.result {v : Value} (hv : (Call.perform task).Fitting begun w tier u v) :
    v.Fits u tier := by
  cases task with
  | evaluate e scope path =>
    exact Or.resolve_right hv.1.fits fun hpath => htask.2.2 hpath.1
  | element f index path location => exact hv
  | constant v => exact hv

end Tasks

/-- What a cell computes may be computed once the cell is running, in the tier of the cell. -/
theorem World.Sound.ready_running (hw : w.Sound begun) {c : CellId} {k : Tier}
    (hcurrent : w.Current k) (hk : w.cell c = some k)
    (hpending : (w.store.cell c).progress = .pending) :
    (w.withStore (w.store.setProgress c .running)).Sound begun ∧
      w.Later begun k (w.store.cell c).task.names (w.withStore (w.store.setProgress c .running)) ∧
      (w.withStore (w.store.setProgress c .running)).Current k ∧
      (Call.perform (w.store.cell c).task).Ready begun
        (w.withStore (w.store.setProgress c .running)) k := by
  obtain ⟨-, -, hfits⟩ := hw.cell c k hk
  have hrunning : Progress.running ≠ .pending := by rintro ⟨⟩
  obtain ⟨hsound, hlater⟩ := hw.setProgress hrunning (by rintro _ _ _ ⟨⟩)
  have htask := hfits.task.seen hlater.toExtends.kept
  exact ⟨hsound, hlater.nowhere, hcurrent.later hlater.toExtends,
    htask.ready fun name hname => hw.free_running hk hpending hname⟩

namespace Evaluator

variable {ev : Evaluator} (hev : ev.registry = .standard)

section Calls

variable {carryOut : (c : Call) → Store → Outcome c.Reply}
  {inside : Call → Store → List Computation} (hcalls : CallsUphold begun carryOut inside)
  (hw : w.Sound begun) (hcurrent : w.Current tier)
  {scope : RecordId} (hscope : Tier.Reaches (w.record scope) tier) {path : String}

include hev hcalls hw hcurrent hscope

/-- An expression that starts a network may be evaluated if none has been started before. -/
theorem startNetwork_upholds {typeName : Ident} {fields : Expr} {location : Location}
    (he : Expr.WellNamed (.mk (.new typeName fields) location))
    (hnetwork : (ExprKind.new typeName fields).startsNetwork = true)
    (hreserved : w.reserved = true) (hpermits : w.start.Permits begun
      ((ev.evaluateNew typeName fields scope path location).performed carryOut inside w.store)) :
    ((ev.evaluateNew typeName fields scope path location).run carryOut w.store).Upholds begun w tier
      (region path) (networksStarted ((ev.evaluateNew typeName fields scope path
        location).performed carryOut inside w.store) + 1)
      (fun u v => v.Given begun w tier path u) fun _ _ => False := by
  have hspare : w.spare = 1 := by simp [World.spare, hreserved]
  have hclear : w.start.Clear begun tier fields scope "" := hw.start_clear hreserved fields scope
  have hrun := (evaluateNew_network_upholds hcalls hev (w := w.start) hscope hclear he hnetwork
    path).outcome (evaluateNew_network_careful hcalls hev (w := w.start) hscope hclear he hnetwork
    path) hw.start (hcurrent.later w.start_extends) hpermits
  change Outcome.Upholds begun w.start tier (region "") _ _ _ (Program.run _ _ w.store) at hrun
  cases hend : (ev.evaluateNew typeName fields scope path location).run carryOut w.store with
  | value v t =>
    rw [hend] at hrun
    obtain ⟨u, hstore, hu, hlater, -, hv⟩ := hrun
    refine ⟨u, hstore, hu, hlater.of_start hreserved, ?_, .of_fits hv (hlater.of_start hreserved)⟩
    omega
  | error e t =>
    rw [hend] at hrun
    exact hrun
  | exhausted => trivial

end Calls

/-- A cell gives up the names it holds to its own computation, which takes them in the tier that
    the cell belongs to, wherever it is forced from. -/
theorem force_upholds {fuel depth : Nat}
    (hcalls : CallsUphold begun (ev.carryOut fuel depth) (ev.performed fuel depth))
    (hw : w.Sound begun) (hcurrent : w.Current tier) {c : CellId}
    (hc : Tier.Reaches (w.cell c) tier)
    (hpermits : w.Permits begun (ev.performed (fuel + 1) depth (.force c) w.store)) :
    (ev.carryOut (fuel + 1) depth (.force c) w.store).Upholds begun w tier ∅
      (networksStarted (ev.performed (fuel + 1) depth (.force c) w.store))
      (fun u v => ∀ k, w.cell c = some k → Value.Fits u k v) fun _ _ => False := by
  obtain ⟨k, hk, hle⟩ := hc
  have hlt := (hw.cell c k hk).1
  cases hprogress : (w.store.cell c).progress with
  | finished v =>
    rw [carryOut_force_finished ev fuel depth hprogress]
    refine ⟨w, rfl, hw, .refl w tier ∅, Nat.le_add_right _ _, fun l hl => ?_⟩
    exact (hw.cell c l hl).2.2.value v hprogress
  | running =>
    rw [carryOut_force_running ev fuel depth hprogress]
    exact ⟨hw.namesDiffer, by rintro name ⟨⟩⟩
  | pending =>
    rw [carryOut_force_pending ev fuel depth hprogress]
    rw [performed_force_pending ev fuel depth hprogress] at hpermits ⊢
    obtain ⟨hw', hww', hcurrent', hready⟩ := hw.ready_running (hcurrent.below hle) hk hprogress
    have hrun := hcalls _ _ k hw' hcurrent' hready ⟨hpermits.spare, hpermits.begun⟩
    have hcarried (o) (ho : ev.carryOut fuel depth (.perform (w.store.cell c).task)
        (w.store.setProgress c .running) = o) := ho ▸ hrun
    cases hresult : ev.carryOut fuel depth (.perform (w.store.cell c).task)
        (w.store.setProgress c .running) with
    | value v t =>
      obtain ⟨u, rfl, hu, hlater, hspent, hv⟩ := hcarried _ hresult
      have hu' := hlater.cell c k hk
      have hvalue := ((hw.cell c k hk).2.2.task.seen hww'.toExtends.kept).result hv
      have hfinished : Progress.finished v ≠ .pending := by rintro ⟨⟩
      obtain ⟨hsettled, hafter⟩ := hu.setProgress hfinished (by
        rintro l x hl ⟨⟩
        obtain rfl := Option.some.inj (hu'.symm.trans hl)
        exact hvalue)
      refine ⟨_, rfl, hsettled, ((hww'.trans hlater).trans hafter.nowhere).of_held (a := .cell c)
        fun name hname => ⟨hk, hprogress, hname⟩, hspent, fun l hl => ?_⟩
      obtain rfl := Option.some.inj (hk.symm.trans hl)
      exact hvalue.mono hafter.toExtends
    | error e t => exact hcarried _ hresult
    | exhausted => trivial

include hev

theorem evaluate_upholds {fuel depth : Nat}
    (hcalls : CallsUphold begun (ev.carryOut fuel (depth + 1)) (ev.performed fuel (depth + 1)))
    (hw : w.Sound begun) (hcurrent : w.Current tier) {e : Expr} {scope : RecordId} {path : String}
    (hready : (Call.perform (.evaluate e scope path)).Ready begun w tier)
    (hpermits : w.Permits begun
      (ev.performed (fuel + 1) depth (.perform (.evaluate e scope path)) w.store)) :
    (ev.carryOut (fuel + 1) depth (.perform (.evaluate e scope path)) w.store).Upholds begun w tier
      (region path)
      (networksStarted (ev.performed (fuel + 1) depth (.perform (.evaluate e scope path)) w.store))
      (fun u v => Value.Given begun w tier path u v) fun _ _ => False := by
  obtain ⟨kind, location⟩ := e
  obtain ⟨he, hscope, hclear⟩ := hready
  rcases Nat.lt_or_ge depth ev.maxDepth with hdepth | hdepth
  · rw [performed_evaluate ev fuel w.store hdepth] at hpermits ⊢
    rw [carryOut_evaluate ev fuel w.store hdepth, networksStarted, List.countP_cons]
    have hbegun := Computation.begins (hpermits.begun _ (.head _))
    refine Outcome.Upholds.through ?_ location
    cases hstarts : kind.startsNetwork with
    | false =>
      have hplain : (ev.computation (fuel + 1) depth (.evaluate (.mk kind location) scope path)
          w.store).task.startsNetwork = false := hstarts
      simp only [hplain]
      exact (evaluateKind_upholds hcalls hev he hstarts hscope hbegun hclear).outcome
        (evaluateKind_careful hev hstarts location scope path) hw hcurrent (hpermits.next hplain)
    | true =>
      cases kind with
      | new typeName fields =>
        have hnetwork : (ev.computation (fuel + 1) depth
            (.evaluate (.mk (.new typeName fields) location) scope path)
            w.store).task.startsNetwork = true := hstarts
        simp only [hnetwork, if_true]
        obtain ⟨hreserved, hpermits'⟩ := hpermits.start hnetwork
        exact startNetwork_upholds hev hcalls hw hcurrent hscope he hstarts hreserved hpermits'
      | _ => cases hstarts
  · rw [carryOut_evaluate_deep ev fuel w.store hdepth]
    exact ⟨hw.namesDiffer, by rintro name ⟨⟩⟩

omit hev in
theorem element_upholds {carryOut : (c : Call) → Store → Outcome c.Reply}
    {inside : Call → Store → List Computation} (hcalls : CallsUphold begun carryOut inside)
    {f : Function} {index : Value} {path : String} {location : Location}
    (hready : (Call.perform (.element f index path location)).Ready begun w tier) :
    (ev.taskProgram (.element f index path location)).Upholds begun carryOut inside w tier
      (region path) fun u v => v.Fits u tier := by
  obtain ⟨hf, hindex, -, hopen⟩ := hready
  have hbody := partId_body f.name
  have hargs (harity : [index].length = f.arity) : LastFit w tier f.params [index] :=
    .of_fits harity.symm (by simpa using hindex)
  have hnamed : ∀ p ∈ ([] : List (String × Value)), p.2.Fits w tier := by simp
  exact (Function.apply_upholds hf hargs hnamed hcalls
    (fun name hname => hopen name (hbody.region_subset hname)) location).mono hbody.region_subset

/-- Whatever is asked for, names are kept apart, however deep calls are nested. This is an
    induction on the fuel. -/
theorem carryOut_upholds (fuel depth : Nat) :
    CallsUphold begun (ev.carryOut fuel depth) (ev.performed fuel depth) := by
  induction fuel generalizing depth with
  | zero =>
    intro c w tier _ _ _ _
    rw [carryOut_zero]
    trivial
  | succ fuel ih =>
    intro c w tier hw hcurrent hready hpermits
    cases c with
    | perform task =>
      cases task with
      | evaluate e scope path =>
        exact (evaluate_upholds hev (ih (depth + 1)) hw hcurrent hready hpermits).and_value
          fun v t hresult => hpermits.begun _ (mem_performed_of_value ev hresult)
      | element f index path location =>
        exact ((element_upholds (ih depth) hready).outcome
          (.of_ordinary (f.apply_raises [index] [] path location)) hw hcurrent
          (hpermits.next rfl)).through location
      | constant v => exact ⟨w, rfl, hw, .refl w tier _, Nat.le_add_right _ _, hready⟩
    | force cell => exact force_upholds (ih depth) hw hcurrent hready hpermits
    | render spec v =>
      exact (Render.value_upholds (ih depth) spec hready).outcome
        (.of_ordinary (Render.value_raises spec v)) hw hcurrent hpermits
    | tie work visited =>
      exact (Network.tieStep_upholds (ih depth) hready.1 hready.2).outcome
        (.of_ordinary (Network.tieStep_raises work visited)) hw hcurrent hpermits

/-- The calls that are carried out inside of one that may be made may be made as well. -/
theorem LeadsTo.asked {m m' : Moment} (h : ev.LeadsTo m m') {since : Nat}
    (hm : m.call.Asked begun (ev.performed m.fuel m.depth) since m.store) :
    m'.call.Asked begun (ev.performed m'.fuel m'.depth) since m'.store := by
  obtain ⟨w, tier, hstore, rfl, hw, hcurrent, hready, hpermits⟩ := hm
  cases h with
  | @evaluate fuel depth e scope path _ t c next hdepth hreach =>
    obtain rfl := hstore
    obtain ⟨kind, location⟩ := e
    obtain ⟨he, hscope, hclear⟩ := hready
    have hcalls :
        CallsUphold begun (ev.carryOut fuel (depth + 1)) (ev.performed fuel (depth + 1)) :=
      carryOut_upholds hev fuel (depth + 1)
    rw [performed_evaluate ev fuel w.store hdepth] at hpermits
    have hbegun := Computation.begins (hpermits.begun _ (.head _))
    cases hstarts : kind.startsNetwork with
    | false =>
      exact (evaluateKind_upholds hcalls hev he hstarts hscope hbegun hclear hw hcurrent
        (hpermits.next hstarts)).2 c next t hreach
    | true =>
      cases kind with
      | new typeName fields =>
        obtain ⟨hreserved, hpermits'⟩ := hpermits.start hstarts
        exact (evaluateNew_network_upholds hcalls hev (w := w.start) hscope
          (hw.start_clear hreserved fields scope) he hstarts path hw.start
          (hcurrent.later w.start_extends) hpermits').2 c next t hreach
      | _ => cases hstarts
  | element hreach =>
    obtain rfl := hstore
    exact (element_upholds (carryOut_upholds hev _ _) hready hw hcurrent
      (hpermits.next rfl)).2 _ _ _ hreach
  | @force fuel depth cell _ hpending =>
    obtain rfl := hstore
    obtain ⟨k, hk, hle⟩ := hready
    rw [performed_force_pending ev fuel depth hpending] at hpermits
    obtain ⟨hw', hlater, hcurrent', hready'⟩ := hw.ready_running (hcurrent.below hle) hk hpending
    exact ⟨w.withStore _, k, rfl, rfl, hw', hcurrent', hready', hpermits.spare, hpermits.begun⟩
  | render hreach =>
    obtain rfl := hstore
    exact (Render.value_upholds (carryOut_upholds hev _ _) _ hready hw hcurrent hpermits).2 _ _ _
      hreach
  | tie hreach =>
    obtain rfl := hstore
    exact (Network.tieStep_upholds (carryOut_upholds hev _ _) hready.1 hready.2 hw hcurrent
      hpermits).2 _ _ _ hreach

end Evaluator

end NetDesc
