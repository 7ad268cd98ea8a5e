import NetDesc.Proofs.Endless.Runs
import NetDesc.Proofs.Network.Exact

namespace NetDesc

/-- A call without arguments evaluates the body of the function in a record of its own. -/
theorem Program.Ends.call_nullary {ev : Evaluator} {depth : Nat} {s : Store} {func body : Expr}
    {home scope : RecordId} {path : String} {P Q : Store → Value → Prop}
    (hdepth : depth < ev.maxDepth)
    (hfunc : (Program.evaluatePart func scope path "_lambda").Ends ev (depth + 1) s
      (fun t v => (∃ f, v.payload = .function f ∧ f.params = [] ∧ f.named = [] ∧ f.body = body ∧
        f.scope = home) ∧ Q t v) False)
    (hbody : ∀ t v (name : String), Q t v →
      (Program.evaluatePart body t.records.size path s!"[{name}]").Ends ev (depth + 1)
        { t with records := t.records.push { enclosing := home :: (t.record home).enclosing } }
        P False) :
    (Program.evaluate (.call func [] []) scope path).Ends ev depth s P False := by
  refine .evaluate hdepth (.bind hfunc ?_)
  rintro t v ⟨⟨⟨params, named, body, home, name⟩, hv, hparams, hnamed, rfl, rfl⟩, hq⟩
  dsimp only at hparams hnamed
  subst hparams hnamed
  have hf : v.asFunction = .ok ⟨[], [], body, home, name⟩ := by rw [Value.asFunction, hv]
  exact .check hf ((hbody t v name hq).congr fun _ => rfl)

namespace DelayChain

def callExpr : Expr :=
  .call (.ofName "f") [] []

def delayFields : List Binding :=
  [.ofName "class" (.ofText "DelayNode"), .ofName "input" callExpr, .ofName "deltaT" (.ofNumber 1)]

/-- A delay of what `f` gives. -/
def delayExpr : Expr :=
  .instantiate "ComputationNode" (.ofMembers delayFields)

def makerExpr : Expr :=
  .function [] [] delayExpr

/-- A network of a delay that `f` gives, where `f` gives a delay of what `f` gives. -/
def treeExpr : Expr :=
  .ofMembers [.ofName "f" makerExpr, .ofName "net" (Network.networkExpr [.ofName "d" callExpr])]

/-- Whether a computation gives the function `f`. -/
def Makes (task : Task) : Prop :=
  ∃ scope path, task = .evaluate makerExpr scope path

/-- The function `f`, defined in the record `home`. -/
def IsMaker (home : RecordId) (v : Value) : Prop :=
  ∃ f, v.payload = .function f ∧ f.params = [] ∧ f.named = [] ∧ f.body = delayExpr ∧ f.scope = home

/-- The record `home` has the function `f`, which need not have been computed. -/
structure Knows (home : RecordId) (s : Store) (m : Member) : Prop where
  inside : home < s.records.size
  found : (s.record home).find? "f" = some m
  cell_lt : m.cell < s.cells.size
  task : Makes (s.cell m.cell).task
  progress : (s.cell m.cell).progress = .pending ∧
      (∃ path, (s.cell m.cell).task = .evaluate makerExpr home path) ∨
    ∃ v, (s.cell m.cell).progress = .finished v ∧ IsMaker home v

/-- In the record `r` the name `f` stands for what it does in `home`. -/
def Sees (home r : RecordId) (s : Store) : Prop :=
  ∃ between rest, (s.record r).enclosing = between ++ home :: rest ∧
    ∀ b ∈ r :: between, b < s.records.size ∧ (s.record b).find? "f" = none

/-- The node `k` is a delay that waits for what `f` gives, in a cell that is not among the first
    `old` ones. -/
structure Waits (home : RecordId) (k : NodeId) (old : Nat) (s : Store) : Prop where
  inside : k < s.nodes.size
  inputs : (s.node k).inputs = []
  waiting : ∃ c r path, (s.node k).pendingInput = some c ∧ old ≤ c ∧ c < s.cells.size ∧
    (s.cell c).progress = .pending ∧ (s.cell c).task = .evaluate callExpr r path ∧ Sees home r s

section Later

variable {home r : RecordId} {s t : Store} {m : Member} {k : NodeId} {old : Nat}

theorem Knows.later (h : Knows home s m) (hst : s.Later (fun _ => False) t) :
    Knows home t m where
  inside := Nat.lt_of_lt_of_le h.inside hst.records
  found := by rw [hst.record home h.inside, h.found]
  cell_lt := Nat.lt_of_lt_of_le h.cell_lt hst.cells
  task := by rw [hst.unchanged h.cell_lt id]; exact h.task
  progress := by rw [hst.unchanged h.cell_lt id]; exact h.progress

/-- Other computations may come and go. -/
theorem Knows.setProgress (h : Knows home s m) {c : CellId} (hc : ¬Makes (s.cell c).task)
    (p : Progress) : Knows home (s.setProgress c p) m := by
  have hne : c ≠ m.cell := by
    rintro rfl
    exact hc h.task
  have hcell : (s.setProgress c p).cell m.cell = s.cell m.cell :=
    Store.setProgress_cell_of_ne hne s p
  exact {
    inside := h.inside
    found := h.found
    cell_lt := by simpa using h.cell_lt
    task := by rw [hcell]; exact h.task
    progress := by rw [hcell]; exact h.progress }

theorem Sees.find? (h : Sees home r s) (hm : (s.record home).find? "f" = some m) :
    s.find? r "f" = some m := by
  obtain ⟨between, rest, henclosing, hnone⟩ := h
  have hbetween : (r :: between).findSome? (fun b => (s.record b).find? "f") = none :=
    List.findSome?_eq_none_iff.2 fun b hb => (hnone b hb).2
  rw [Store.find?, henclosing, ← List.cons_append, List.findSome?_append, hbetween,
    List.findSome?_cons, hm]
  rfl

theorem not_makes_call (r : RecordId) (path : String) : ¬Makes (.evaluate callExpr r path) := by
  rintro ⟨scope, path', h⟩
  cases congrArg Expr.kind (Task.evaluate.inj h).1

end Later

variable {ev : Evaluator} {depth : Nat} {home r : RecordId} {s : Store} {m : Member}

theorem force_maker_ends (hdepth : depth < ev.maxDepth) (hs : Knows home s m) :
    (Program.force m.cell).Ends ev depth s (fun t v => IsMaker home v ∧ s.Later Makes t ∧
      Knows home t m) False := by
  rcases hs.progress with ⟨hpending, path, htask⟩ | ⟨v, hv, hmaker⟩
  · refine .force_pending hpending ?_
    rw [htask]
    refine .evaluate hdepth (.pure ?_)
    refine ⟨⟨_, rfl, rfl, rfl, rfl, rfl⟩, ?_, ?_⟩
    · exact .settle hpending hs.task (.refl _ _) _
    · refine ⟨hs.inside, hs.found, by simpa using hs.cell_lt, ?_, .inr ?_⟩
      · rw [Store.setProgress_cell_self (by simpa using hs.cell_lt),
          Store.setProgress_cell_self hs.cell_lt]
        exact hs.task
      · rw [Store.setProgress_cell_self (by simpa using hs.cell_lt)]
        exact ⟨_, rfl, _, rfl, rfl, rfl, rfl, rfl⟩
  · exact .force_finished hv ⟨hmaker, .refl _ s, hs⟩

/-- Accessing a field that is a literal gives its value. -/
theorem literal_ends {fields : RecordId} {inside name : String} {old : Nat} {b : Binding}
    (payload : Payload) (hm : s.Holds fields inside old b m) (hname : b.name.name = name)
    (hdepth : depth < ev.maxDepth)
    (hvalue : ∀ location scope path,
      ev.evaluateKind b.value.kind location scope path = pure ⟨payload, location, path⟩) :
    (Program.field fields name).Ends ev depth s
      (fun t v => v.payload = payload ∧ ∃ w, t = s.given m.cell w) False :=
  .field_literal hm hname hdepth hvalue fun v hv => ⟨hv, v, rfl⟩

/-- The fields give a delay that waits. -/
theorem construct_ends {outer : RecordId} {inside path : String} {fields : RecordId} {t : Store}
    (hdepth : depth < ev.maxDepth) (hlays : s.Lays outer inside delayFields fields t)
    (hsees : Sees home fields t) (location : Location) :
    (Node.construct fields location path).Ends ev depth t (fun u v => ∃ (w : Store) (x : Node),
      s.Later (fun _ => False) w ∧ v.payload = .object (.node w.nodes.size) ∧
        u = { w with nodes := w.nodes.push x } ∧ x.inputs = [] ∧
        ∃ c r path, x.pendingInput = some c ∧ s.cells.size ≤ c ∧ c < w.cells.size ∧
          (w.cell c).progress = .pending ∧ (w.cell c).task = .evaluate callExpr r path ∧
          Sees home r w) False := by
  obtain ⟨first, hclass⟩ :=
    hlays.holds (.ofName "class" (.ofText "DelayNode")) (by simp [delayFields])
  obtain ⟨second, hinput⟩ := hlays.holds (.ofName "input" callExpr) (by simp [delayFields])
  obtain ⟨third, hdelta⟩ := hlays.holds (.ofName "deltaT" (.ofNumber 1)) (by simp [delayFields])
  have hop : (Node.selectedOperation fields).Ends ev depth t (fun u op => op = .delay ∧
      ∃ v, u = t.given first.cell v) False := by
    refine .bind (literal_ends (.text "DelayNode") hclass rfl hdepth fun _ _ _ => rfl) ?_
    rintro u v ⟨hv, hu⟩
    have htext : v.asText = .ok "DelayNode" := by rw [Value.asText, hv]
    exact .check htext (.pure ⟨rfl, hu⟩)
  refine .bind hop ?_
  rintro _ _ ⟨rfl, v, rfl⟩
  have htag : (Node.tagOf fields).Ends ev depth (t.given first.cell v)
      (fun u tag => u = t.given first.cell v ∧ tag = "") False := by
    have hnone : (t.record fields).find? "optionalTag" = none := by
      refine Record.find?_eq_none_of_not_mem ?_
      rw [hlays.names]
      decide
    refine .bind (P := fun u found => u = t.given first.cell v ∧ found = none)
      (.optionalField_none hnone ⟨rfl, rfl⟩) ?_
    rintro _ _ ⟨rfl, rfl⟩
    exact .pure ⟨rfl, rfl⟩
  refine .bind htag ?_
  rintro _ _ ⟨rfl, rfl⟩
  have hne : first.cell ≠ second.cell := hclass.cell_ne hinput (by rintro ⟨⟩)
  have hne' : first.cell ≠ third.cell := hclass.cell_ne hdelta (by rintro ⟨⟩)
  have hne'' : third.cell ≠ second.cell := hdelta.cell_ne hinput (by rintro ⟨⟩)
  have hinput' : (t.given first.cell v).Holds fields inside s.cells.size
      (.ofName "input" callExpr) second :=
    (hinput.setProgress hne _).setProgress hne _
  have hdelta' : (t.given first.cell v).Holds fields inside s.cells.size
      (.ofName "deltaT" (.ofNumber 1)) third :=
    (hdelta.setProgress hne' _).setProgress hne' _
  have hnode : (Node.ofFields .delay "" fields).Ends ev depth (t.given first.cell v)
      (fun u x => (∃ w, u = (t.given first.cell v).given third.cell w) ∧ x.inputs = [] ∧
        x.pendingInput = some second.cell) False := by
    refine .bind (P := fun u found => u = t.given first.cell v ∧ found = some second.cell)
      (.after (.pure ⟨rfl, congrArg (Option.map _) hinput'.found⟩)) ?_
    rintro _ _ ⟨rfl, rfl⟩
    refine .bind (literal_ends (.number 1) hdelta' rfl hdepth fun _ _ _ => rfl) ?_
    rintro u w ⟨hw, hu⟩
    have hone : (Binary64.ofFloat 1).toInt? = some 1 := by decide +kernel
    exact .check (Value.asIndex_eq_ok hw hone (by decide)) (.pure ⟨hu, rfl, rfl⟩)
  refine .bind hnode ?_
  rintro _ x ⟨⟨w, rfl⟩, hinputs, hpending⟩
  have hlater : s.Later (fun _ => False) ((t.given first.cell v).given third.cell w) :=
    ((((hlays.later (.refl _ s)).setProgress hclass.new _).setProgress hclass.new _).setProgress
      hdelta.new _).setProgress hdelta.new _
  have hlast := (hinput'.setProgress hne'' .running).setProgress hne'' (.finished w)
  exact .after (.pure ⟨_, x, hlater, rfl, rfl, hinputs, second.cell, fields, _, hpending,
    hlast.new, hlast.inside, hlast.pending, hlast.task, hsees⟩)

/-- A record literal in a record that sees `f`, or that is inside `home`, sees it as well. -/
theorem sees_of_lays {outer fields : RecordId} {path : String} {members : List Binding} {t : Store}
    (hlays : s.Lays outer path members fields t) (hsize : s.records.size ≤ t.records.size)
    (hrecord : ∀ b < s.records.size, t.record b = s.record b)
    (hnames : "f" ∉ members.map (·.name.name)) (houter : outer = home ∨ Sees home outer s) :
    Sees home fields t := by
  have hfields : fields < t.records.size ∧ (t.record fields).find? "f" = none := by
    refine ⟨hlays.inside, Record.find?_eq_none_of_not_mem ?_⟩
    rwa [hlays.names]
  rcases houter with rfl | ⟨between, rest, henclosing, hnone⟩
  · exact ⟨[], _, hlays.enclosing, by simpa using hfields⟩
  · refine ⟨outer :: between, rest, ?_, ?_⟩
    · rw [hlays.enclosing, henclosing, List.cons_append]
    · rintro b (_ | ⟨_, hb⟩)
      · exact hfields
      · obtain ⟨hlt, hb⟩ := hnone b hb
        exact ⟨Nat.lt_of_lt_of_le hlt hsize, by rw [hrecord b hlt, hb]⟩

/-- Evaluating the body of `f` gives a node that waits for what `f` gives. -/
theorem delay_ends {path : String} (hdepth : depth + 1 < ev.maxDepth)
    (hev : ev.registry = .standard) (hsees : Sees home r s) :
    (Program.evaluate delayExpr r path).Ends ev depth s (fun t v =>
      s.Later (fun _ => False) t ∧ ∃ k, v.payload = .object (.node k) ∧ s.nodes.size ≤ k ∧
        Waits home k s.cells.size t) False := by
  refine .evaluate (by omega) ?_
  refine .check (a := Node.runtimeType) (by rw [hev]; rfl) ?_
  refine .bind (Evaluator.evaluate_record_ends rfl (by decide) (by omega) s r _) ?_
  rintro t v ⟨fields, hv, hlays⟩
  have hrecord : v.asRecord = .ok fields := by rw [Value.asRecord, hv]
  refine .check hrecord ?_
  have hst : s.Later (fun _ => False) t := hlays.later (.refl _ s)
  have hsees' : Sees home fields t :=
    sees_of_lays hlays hst.records hst.record (by decide) (.inr hsees)
  refine .bind (construct_ends (by omega) hlays hsees' _) ?_
  rintro _ ⟨_, _, _⟩ ⟨w, x, hsw, rfl, rfl, hinputs, c, r', inside, hpending, hold, hcell⟩
  let u : Store :=
    { w with nodes := (w.nodes.push x).modify w.nodes.size ({ · with name := path }) }
  have hwu : w.Later (fun _ => False) u :=
    ((Store.Later.refl _ w).newNode x).modifyNode (Nat.le_refl _) _
  have hnode : u.node w.nodes.size = { x with name := path } := by
    refine (Store.node_modify { w with nodes := w.nodes.push x } _ _ _).trans ?_
    rw [if_pos ⟨rfl, by simp⟩, Store.node_push, if_pos rfl]
  have hwaits : Waits home w.nodes.size s.cells.size u :=
    ⟨by simp [u], by rw [hnode, hinputs], c, r', inside, by rw [hnode, hpending], hold, hcell⟩
  exact .after (.pure ⟨hsw.trans hwu, w.nodes.size, rfl, hsw.nodes, hwaits⟩)

/-- Calling `f` gives a node that waits for what `f` gives. -/
theorem call_ends {path : String} (hdepth : depth + 2 < ev.maxDepth) (hev : ev.registry = .standard)
    (hs : Knows home s m) (hsees : Sees home r s) :
    (Program.evaluate callExpr r path).Ends ev depth s (fun t v => s.Later Makes t ∧
      Knows home t m ∧ ∃ k, v.payload = .object (.node k) ∧ s.nodes.size ≤ k ∧
        Waits home k s.cells.size t) False := by
  refine .call_nullary (by omega) (.evaluate (by omega)
    (.lookup (hsees.find? hs.found) _ (force_maker_ends (by omega) hs))) ?_
  rintro t v name ⟨hst, ht⟩
  -- The call has a record of its own, which is empty.
  let scope' : Record := { enclosing := home :: (t.record home).enclosing }
  let opened : Store := { t with records := t.records.push scope' }
  have hopened : t.Later (fun _ => False) opened := (Store.Later.refl _ t).newRecord scope'
  have hrecord : opened.record t.records.size = scope' :=
    (Store.record_push t scope' _).trans (if_pos rfl)
  have hsees' : Sees home t.records.size opened := by
    refine ⟨[], _, by rw [hrecord]; rfl, ?_⟩
    simp only [List.mem_singleton, forall_eq]
    exact ⟨by simp [opened], by rw [hrecord]; rfl⟩
  refine (delay_ends (by omega) hev hsees').imp ?_ id
  rintro u w ⟨hu, k, hk, hnew, hwaits⟩
  have htu := hopened.trans hu
  refine ⟨hst.trans htu.weaken, ht.later htu, k, hk, Nat.le_trans hst.nodes hnew, ?_⟩
  obtain ⟨c, r', inside, hc, hold, hcell⟩ := hwaits.waiting
  exact { hwaits with waiting := ⟨c, r', inside, hc, Nat.le_trans hst.cells hold, hcell⟩ }

/-- A cell in which `f` is called gives a node that waits for what `f` gives. -/
theorem force_call_ends {c : CellId} {path : String} (hdepth : depth + 2 < ev.maxDepth)
    (hev : ev.registry = .standard) (hs : Knows home s m) (hsees : Sees home r s)
    (hpending : (s.cell c).progress = .pending)
    (htask : (s.cell c).task = .evaluate callExpr r path) :
    (Program.force c).Ends ev depth s (fun t v => (∀ k < s.nodes.size, t.node k = s.node k) ∧
      Knows home t m ∧ ∃ k, v.payload = .object (.node k) ∧ s.nodes.size ≤ k ∧
        Waits home k s.cells.size t) False := by
  have hc : c < s.cells.size := Store.lt_of_pending hpending
  have hmakes : ¬Makes (s.cell c).task := htask ▸ not_makes_call r path
  refine .force_pending hpending ?_
  rw [htask]
  refine (call_ends hdepth hev (hs.setProgress hmakes .running) hsees).imp ?_ id
  rintro t v ⟨hst, ht, k, hk, hnew, hwaits⟩
  have hcell : ¬Makes (t.cell c).task := by
    rw [hst.task (by simpa using hc), Store.setProgress_cell_self hc]
    exact hmakes
  obtain ⟨d, r', inside, hd, hold, hlt, hdpending, hdtask, hdsees⟩ := hwaits.waiting
  rw [Store.setProgress_cells_size] at hold
  have hne : c ≠ d := Nat.ne_of_lt (Nat.lt_of_lt_of_le hc hold)
  refine ⟨hst.node, ht.setProgress hcell _, k, hk, hnew, hwaits.inside, hwaits.inputs, d, r',
    inside, hd, hold, by simpa using hlt, ?_, ?_, hdsees⟩
  · rw [Store.setProgress_cell_of_ne hne]
    exact hdpending
  · rw [Store.setProgress_cell_of_ne hne]
    exact hdtask

/-- Tying a node that waits leaves a node that waits. -/
theorem finalize_ends {k : NodeId} {old : Nat} (hdepth : depth + 2 < ev.maxDepth)
    (hev : ev.registry = .standard) (hs : Knows home s m) (hwaits : Waits home k old s) :
    (Node.finalize k).Ends ev depth s (fun t _ => s.nodes.size ≤ t.nodes.size ∧ Knows home t m ∧
      ∃ k', s.nodes.size ≤ k' ∧ t.children (.node k) = [.node k'] ∧ Waits home k' 0 t) False := by
  obtain ⟨c, r, path, hc, -, -, hpending, htask, hsees⟩ := hwaits.waiting
  refine .readNode ?_
  rw [hc]
  refine .bind (force_call_ends hdepth hev hs hsees hpending htask) ?_
  rintro t v ⟨hnode, ht, k', hk', hnew, hwaits'⟩
  refine .check (Value.asNode_eq_ok hk') ?_
  have hlt : k < t.nodes.size := Nat.lt_trans (Nat.lt_of_lt_of_le hwaits.inside hnew) hwaits'.inside
  have hne : k ≠ k' := Nat.ne_of_lt (Nat.lt_of_lt_of_le hwaits.inside hnew)
  let tie (n : Node) : Node := { n with inputs := n.inputs ++ [k'], pendingInput := none }
  let u : Store := { t with nodes := t.nodes.modify k tie }
  have htied : u.node k = tie (t.node k) := (Store.node_modify t tie k k).trans (if_pos ⟨rfl, hlt⟩)
  have hother : u.node k' = t.node k' :=
    (Store.node_modify t tie k k').trans (if_neg (not_and_of_not_left _ hne))
  have hsize : u.nodes.size = t.nodes.size := by simp [u]
  have hchildren : u.children (.node k) = [.node k'] := by
    rw [Store.children, htied]
    simp only [tie, hnode k hwaits.inside, hwaits.inputs, List.nil_append, List.map_cons,
      List.map_nil]
  have hlast : Waits home k' 0 u := by
    obtain ⟨d, r', inside, hd, -, hcell⟩ := hwaits'.waiting
    exact ⟨hsize ▸ hwaits'.inside, by rw [hother, hwaits'.inputs], d, r', inside,
      by rw [hother, hd], Nat.zero_le d, hcell⟩
  have hgrows : s.nodes.size ≤ u.nodes.size :=
    hsize ▸ Nat.le_trans hnew (Nat.le_of_lt hwaits'.inside)
  exact .step ⟨hgrows, ⟨ht.inside, ht.found, ht.cell_lt, ht.task, ht.progress⟩, k', hnew, hchildren,
    hlast⟩

/-- A walk that comes to a node that waits never ends. -/
theorem tie_endless {k : NodeId} {old : Nat} {visited : List Object}
    (hdepth : depth + 2 < ev.maxDepth) (hev : ev.registry = .standard) (hs : Knows home s m)
    (hwaits : Waits home k old s) (hk : .node k ∉ visited)
    (hvisited : ∀ i, .node i ∈ visited → i < s.nodes.size) :
    ev.Endless ⟨depth, .tie [.node k] visited, s⟩ := by
  intro fuel
  induction fuel generalizing s k old visited with
  | zero => exact ev.carryOut_zero depth s _
  | succ fuel ih =>
    change (Network.tieStep [.node k] visited).run (ev.carryOut fuel depth) s = _
    rw [Network.tieStep, if_neg (by simpa using hk)]
    refine (finalize_ends hdepth hev hs hwaits).run_bind ?_
    rintro t _ ⟨hgrows, ht, k', hnew, hchildren, hwaits'⟩
    have hk' : .node k' ∉ visited ++ [.node k] := by
      rw [List.mem_append, List.mem_singleton]
      rintro (hmem | heq)
      · exact Nat.not_lt.2 hnew (hvisited k' hmem)
      · cases heq
        exact Nat.not_lt.2 hnew hwaits.inside
    have hrest := ih ht hwaits' hk' fun i hi => by
      refine Nat.lt_of_lt_of_le ?_ hgrows
      rcases List.mem_append.1 hi with hi | hi
      · exact hvisited i hi
      · cases List.mem_singleton.1 hi
        exact hwaits.inside
    change (Program.tie ([] ++ (t.children (.node k)).filter _) (visited ++ [.node k])).run _ t = _
    rw [hchildren, List.filter_cons_of_pos (by simpa using hk')]
    exact (Program.run_call _ _ t).trans hrest

/-- The roots of a network of a delay that `f` gives. -/
theorem roots_ends {outer fields : RecordId} {path : String} {t : Store}
    (hdepth : depth + 2 < ev.maxDepth) (hev : ev.registry = .standard)
    (hlays : s.Lays outer path [.ofName "d" callExpr] fields t) (ht : Knows home t m)
    (hsees : Sees home fields t) :
    (Network.roots ((t.record fields).members.toList.map (·.2))).Ends ev depth t
      (fun u ids => Knows home u m ∧ ∃ k, ids = [k] ∧ Waits home k t.cells.size u) False := by
  obtain ⟨first, hfirst⟩ := hlays.holds (.ofName "d" callExpr) (by simp)
  rw [hlays.members_eq hfirst, List.map_singleton]
  have hforced := force_call_ends hdepth hev ht hsees hfirst.pending hfirst.task
  refine .bind (P := fun u values => Knows home u m ∧ ∃ v k, values = [v] ∧
    v.payload = .object (.node k) ∧ Waits home k t.cells.size u) ?_ ?_
  · rw [List.map_singleton, Program.forceAll, List.mapM_cons]
    refine .bind hforced ?_
    rintro u v ⟨-, hu, k, hk, -, hwaits⟩
    exact .pure ⟨hu, v, k, rfl, hk, hwaits⟩
  · rintro u _ ⟨hu, v, k, rfl, hk, hwaits⟩
    refine .pure ⟨hu, k, ?_, hwaits⟩
    simp only [List.filterMap_cons, List.filterMap_nil, hk]

/-- A network with a delay that `f` gives is never built. While such a node is tied the next one
    is made, and none is nested in another: each evaluation has ended when the walk goes on. -/
theorem network_endless {path : String} (hdepth : depth + 3 < ev.maxDepth)
    (hev : ev.registry = .standard) (hs : Knows home s m) :
    (Program.evaluate (Network.networkExpr [.ofName "d" callExpr]) home path).Endless ev depth
      s := by
  refine .evaluate (by omega) ?_
  refine .check (a := Network.runtimeType) (by rw [hev]; rfl) ?_
  refine .after (Evaluator.evaluate_record_ends rfl (by decide) (by omega) s home _) ?_
  rintro t v ⟨fields, hv, hlays⟩
  have hrecord : v.asRecord = .ok fields := by rw [Value.asRecord, hv]
  have hst : s.Later (fun _ => False) t := hlays.later (.refl _ s)
  have hsees : Sees home fields t :=
    sees_of_lays hlays hst.records hst.record (by decide) (.inl rfl)
  refine .check hrecord (.bind (.bind ?_ _) _)
  refine .after (P := fun u r => u = t ∧ r = t.record fields) (.step ⟨rfl, rfl⟩) ?_
  rintro _ _ ⟨rfl, rfl⟩
  refine .after (roots_ends (by omega) hev hlays (hs.later hst) hsees) ?_
  rintro u _ ⟨hu, k, rfl, hwaits⟩
  exact .bind (.call (tie_endless (by omega) hev hu hwaits (by simp) (by simp))) _

/-- Whatever the limits are, the member `net` is never given. -/
theorem evaluateMember_endless (hev : ev.registry = .standard) (hdepth : 4 ≤ ev.maxDepth)
    (fuel : Nat) (s : Store) : ev.evaluateMember fuel treeExpr "net" s = .exhausted := by
  refine Evaluator.evaluateMember_endless rfl (by decide) (by omega)
    (b := .ofName "net" (Network.networkExpr [.ofName "d" callExpr])) (by simp) ?_ fuel
  intro outer home path m t u hlays hm
  obtain ⟨first, hfirst⟩ := hlays.holds (.ofName "f" makerExpr) (by simp)
  refine network_endless (m := first) hdepth hev ?_
  have hne : m.cell ≠ first.cell := hm.cell_ne hfirst (by rintro ⟨⟩)
  have hfirst' := hfirst.setProgress hne .running
  exact ⟨hlays.inside, hfirst'.found, hfirst'.inside, ⟨_, _, hfirst'.task⟩,
    .inl ⟨hfirst'.pending, _, hfirst'.task⟩⟩

end DelayChain

end NetDesc
