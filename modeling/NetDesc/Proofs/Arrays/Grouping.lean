import NetDesc.Proofs.Paths.Run

namespace NetDesc

/-- The items are the leaves, some of them grouped by array literals. The elements of an item
    that is an array are spliced in, so a literal only depends on its leaves. -/
inductive Expr.Grouping : (leaves items : List Expr) → Prop
  | nil : Grouping [] []
  | leaf (e : Expr) {leaves items : List Expr} (h : Grouping leaves items) :
      Grouping (e :: leaves) (e :: items)
  | group (location : Location) {inner grouped leaves items : List Expr}
      (hinner : Grouping inner grouped) (h : Grouping leaves items) :
      Grouping (inner ++ leaves) (.mk (.array grouped) location :: items)

/-- Leaves that are not grouped at all. -/
theorem Expr.Grouping.refl (leaves : List Expr) : Grouping leaves leaves := by
  induction leaves with
  | nil => exact .nil
  | cons e leaves ih => exact .leaf e ih

namespace Evaluator

variable {ev : Evaluator} {scope : RecordId} {fuel fuel' depth depth' : Nat}

/-- Adds what an item stands for: the cells of an array as they are, or else one new cell. -/
def takeItem (found : Array CellId) (v : Value) : Program (Array CellId) :=
  match v.payload with
  | .array a => return found ++ a.cells
  | _ => do
    let cell ← Program.newCell (.ready v)
    return found.push cell

section Items

variable (scope : RecordId) (path : String) (count : Nat) (found : Array CellId)

theorem evaluateItems_cons (item : Expr) (rest : List Expr) :
    evaluateItems scope path count found (item :: rest) =
      (Program.evaluatePart item scope path s!"_vecelem{count}" >>= takeItem found) >>= fun found =>
        evaluateItems scope path (count + 1) found rest := by
  rw [evaluateItems, bind_assoc]
  refine congrArg _ (funext fun v => ?_)
  obtain ⟨x, location, via⟩ := v
  cases x <;> rfl

theorem evaluateItems_append (items rest : List Expr) :
    evaluateItems scope path count found (items ++ rest) =
      evaluateItems scope path count found items >>= fun found =>
        evaluateItems scope path (count + items.length) found rest := by
  induction items generalizing count found with
  | nil => rfl
  | cons item items ih =>
    rw [List.cons_append, evaluateItems_cons, evaluateItems_cons, List.length_cons,
      Nat.add_left_comm, Nat.add_comm items.length]
    simp only [bind_assoc, ih, Nat.add_assoc]

variable (carryOut : (c : Call) → Store → Outcome c.Reply) (s : Store)

theorem run_items_cons (item : Expr) (rest : List Expr) :
    (evaluateItems scope path count found (item :: rest)).run carryOut s =
      ((Program.evaluatePart item scope path s!"_vecelem{count}" >>= takeItem found).run carryOut
        s).bind fun cells t =>
          (evaluateItems scope path (count + 1) cells rest).run carryOut t := by
  rw [evaluateItems_cons, Program.run_bind]

theorem run_items_append (items rest : List Expr) :
    (evaluateItems scope path count found (items ++ rest)).run carryOut s =
      ((evaluateItems scope path count found items).run carryOut s).bind fun cells t =>
        (evaluateItems scope path (count + items.length) cells rest).run carryOut t := by
  rw [evaluateItems_append, Program.run_bind]

end Items

/-- The same cells have been added to both. -/
def Appends (found found' cells cells' : Array CellId) : Prop :=
  ∃ new, cells = found ++ new ∧ cells' = found' ++ new

theorem Appends.trans {found found' cells cells' more more' : Array CellId}
    (h : Appends found found' cells cells') (h' : Appends cells cells' more more') :
    Appends found found' more more' := by
  obtain ⟨new, rfl, rfl⟩ := h
  obtain ⟨new', rfl, rfl⟩ := h'
  exact ⟨new ++ new', Array.append_assoc, Array.append_assoc⟩

theorem takeItem_agrees {v w : Value} (h : v.Agrees w) (found found' : Array CellId) :
    (takeItem found v).Agrees (Appends found found') (takeItem found' w) := by
  have hready : Program.Agrees (Appends found found')
      (Program.newCell (.ready v) >>= fun cell => pure (found.push cell))
      (Program.newCell (.ready w) >>= fun cell => pure (found'.push cell)) :=
    .bind_eq (Program.ready_agrees h) fun cell => .pure ⟨#[cell], rfl, rfl⟩
  obtain ⟨x, l, path⟩ := v
  obtain ⟨y, l', path'⟩ := w
  cases h.payload with
  | same x =>
    cases x with
    | array a => exact .pure ⟨a.cells, rfl, rfl⟩
    | _ => exact hready
  | function hfg => exact hready

/-- A leaf adds the same cells, whatever it is called in paths. Nothing else tells the items of a
    literal how they are grouped. -/
theorem leaf_agrees (e : Expr) (scope : RecordId) (path path' id id' : String)
    (found found' : Array CellId) :
    (Program.evaluatePart e scope path id >>= takeItem found).Agrees (Appends found found')
      (Program.evaluatePart e scope path' id' >>= takeItem found') :=
  .bind (Program.evaluatePart_agrees e scope path path' id id') fun _ _ h =>
    takeItem_agrees h found found'

section Literals

variable (ev : Evaluator)

/-- Without fuel, or too deep, no expression is evaluated. -/
theorem evaluate_cutOff (h : fuel = 0 ∨ ev.maxDepth ≤ depth) (e : Expr) (scope : RecordId)
    (path : String) (s : Store) :
    (ev.carryOut fuel depth (.perform (.evaluate e scope path)) s : Outcome Value).CutOff := by
  cases fuel with
  | zero => trivial
  | succ fuel =>
    rw [carryOut_evaluate_deep ev fuel s (h.resolve_left (Nat.succ_ne_zero fuel))]
    rfl

/-- To evaluate a literal is to evaluate its items one level deeper. -/
theorem run_literal (hdepth : depth < ev.maxDepth) (items : List Expr) (location : Location)
    (scope : RecordId) (path : String) (s : Store) :
    (ev.carryOut (fuel + 1) depth (.perform (.evaluate (.mk (.array items) location) scope path))
        s : Outcome Value) =
      (((evaluateItems scope path 0 #[] items).run (ev.carryOut fuel (depth + 1)) s).bind
        fun cells t => .value (.array { cells } location path) t).through location := by
  rw [carryOut_evaluate ev fuel s hdepth]
  exact congrArg (fun o : Outcome Value => o.through location) (Program.run_bind
    (ev.carryOut fuel (depth + 1)) (evaluateItems scope path 0 #[] items) _ s)

/-- What a literal among the items of another one adds, given how its own items end. -/
def ofGroup (found : Array CellId) (location : Location) (o : Outcome (Array CellId)) :
    Outcome (Array CellId) :=
  (o.through location).bind fun cells t => .value (found ++ cells) t

/-- A literal among the items of another one adds the cells of its own items. -/
theorem run_group (hdepth : depth < ev.maxDepth) (items : List Expr) (location : Location)
    (scope : RecordId) (path id : String) (found : Array CellId) (s : Store) :
    (Program.evaluatePart (.mk (.array items) location) scope path id >>= takeItem found).run
        (ev.carryOut (fuel + 1) depth) s =
      ofGroup found location ((evaluateItems scope (joinPath path id) 0 #[] items).run
        (ev.carryOut fuel (depth + 1)) s) := by
  rw [Program.run_bind]
  refine (congrArg (Outcome.bind · _) ((Program.run_call _ _ s).trans
    (ev.run_literal hdepth items location scope (joinPath path id) s))).trans ?_
  generalize (evaluateItems scope (joinPath path id) 0 #[] items).run
    (ev.carryOut fuel (depth + 1)) s = o
  cases o <;> rfl

theorem run_item_cutOff (h : fuel = 0 ∨ ev.maxDepth ≤ depth) (e : Expr) (scope : RecordId)
    (path id : String) (found : Array CellId) (s : Store) :
    ((Program.evaluatePart e scope path id >>= takeItem found).run (ev.carryOut fuel depth)
      s).CutOff := by
  rw [Program.run_bind]
  refine Outcome.cutOff_bind ?_
  rw [show (Program.evaluatePart e scope path id).run (ev.carryOut fuel depth) s = _ from
    Program.run_call _ _ s]
  exact ev.evaluate_cutOff h e scope (joinPath path id) s

end Literals

/-- Items that are grouped by a literal add what they add by themselves. -/
theorem ofGroup_below {found' : Array CellId} {o o' : Outcome (Array CellId)}
    (h : o.Below (Appends #[] found') o') (found : Array CellId) (location : Location) :
    (ofGroup found location o).Below (Appends found found') o' := by
  cases h with
  | value h hst =>
    obtain ⟨new, rfl, rfl⟩ := h
    exact .value ⟨new, by rw [Array.empty_append], rfl⟩ hst
  | error h s t =>
    refine .error ?_ s t
    simpa only [EvalError.code, EvalError.through_cause] using h
  | cutOff h o' => exact .cutOff (Outcome.cutOff_bind (Outcome.cutOff_through.2 h)) o'

theorem below_ofGroup {found : Array CellId} {o o' : Outcome (Array CellId)}
    (h : o.Below (Appends found #[]) o') (found' : Array CellId) (location : Location) :
    o.Below (Appends found found') (ofGroup found' location o') := by
  cases h with
  | value h hst =>
    obtain ⟨new, rfl, rfl⟩ := h
    exact .value ⟨new, rfl, by rw [Array.empty_append]⟩ hst
  | error h s t =>
    refine .error ?_ s t
    simpa only [EvalError.code, EvalError.through_cause] using h
  | cutOff h o' => exact .cutOff h _

/-- With this much more room than the first items have, the others add the same cells, unless the
    first ones are cut off. -/
def Matched (ev : Evaluator) (scope : RecordId) (extra : Nat) (items items' : List Expr) : Prop :=
  ∀ {limit limit' fuel fuel' depth depth' : Nat}, fuel + extra ≤ fuel' → depth ≤ limit →
    limit + depth' + extra ≤ limit' + depth → ∀ (path path' : String) (count count' : Nat)
      (found found' : Array CellId) {s t : Store}, s.Agrees t →
        ((evaluateItems scope path count found items).run
            ((ev.withDepth limit).carryOut fuel depth) s).Below (Appends found found')
          ((evaluateItems scope path' count' found' items').run
            ((ev.withDepth limit').carryOut fuel' depth') t)

namespace Matched

variable {extra : Nat} {items items' : List Expr}

theorem nil (ev : Evaluator) (scope : RecordId) (extra : Nat) : ev.Matched scope extra [] [] := by
  intro limit limit' fuel fuel' depth depth' _ _ _ path path' count count' found found' s t hst
  exact .value ⟨#[], Array.append_empty.symm, Array.append_empty.symm⟩ hst

/-- What has been added so far is matched, and so is what comes after. -/
theorem below_bind {found found' : Array CellId} {o o' : Outcome (Array CellId)}
    {f g : Array CellId → Store → Outcome (Array CellId)}
    (h : o.Below (Appends found found') o')
    (hfg : ∀ cells cells' s t, s.Agrees t →
      (f cells s).Below (Appends cells cells') (g cells' t)) :
    (o.bind f).Below (Appends found found') (o'.bind g) :=
  h.bind fun cells cells' s t hcells hst =>
    (hfg cells cells' s t hst).imp fun _ _ hmore => hcells.trans hmore

variable (hev : ev.registry.types = [])

include hev

/-- A leaf is matched by itself. -/
theorem leaf (e : Expr) (h : ev.Matched scope extra items items') :
    ev.Matched scope extra (e :: items) (e :: items') := by
  intro limit limit' fuel fuel' depth depth' hfuel hdepth hroom path path' count count' found found'
    s t hst
  rw [run_items_cons, run_items_cons]
  have hcalls : Program.Simulates ((ev.withDepth limit).carryOut fuel depth)
      ((ev.withDepth limit').carryOut fuel' depth') :=
    simulates hev (by omega) (by omega)
  exact below_bind ((leaf_agrees e scope path path' _ _ found found').run hcalls hst)
    fun cells cells' s t hst => h hfuel hdepth hroom _ _ _ _ cells cells' hst

/-- The leaves match the items that group them, without any more room. -/
theorem of_grouping {leaves : List Expr} (h : Expr.Grouping leaves items) :
    ev.Matched scope 0 items leaves := by
  induction h with
  | nil => exact Matched.nil ev scope 0
  | leaf e h ih => exact ih.leaf hev e
  | @group location inner grouped leaves items hinner h ihinner ih =>
    intro limit limit' fuel fuel' depth depth' hfuel hdepth hroom path path' count count' found
      found' s t hst
    rw [run_items_cons, run_items_append]
    refine below_bind ?_ fun cells cells' s t hst => ih hfuel hdepth hroom _ _ _ _ cells cells' hst
    by_cases hnone : fuel = 0 ∨ limit ≤ depth
    · have hcut := (ev.withDepth limit).run_item_cutOff hnone (.mk (.array grouped) location) scope
        path s!"_vecelem{count}" found s
      exact .cutOff hcut _
    · obtain ⟨hsome, hbelow⟩ := not_or.1 hnone
      obtain ⟨fuel, rfl⟩ := Nat.exists_eq_succ_of_ne_zero hsome
      rw [(ev.withDepth limit).run_group (Nat.lt_of_not_le hbelow)]
      exact ofGroup_below (ihinner (by omega) (by omega) (by omega) _ _ _ _ #[] found' hst) found
        location

/-- The items match the leaves that they group, given room for the literals that group them. -/
theorem to_grouping {leaves : List Expr} (h : Expr.Grouping leaves items) :
    ∃ extra, ev.Matched scope extra leaves items := by
  induction h with
  | nil => exact ⟨0, Matched.nil ev scope 0⟩
  | leaf e h ih =>
    obtain ⟨extra, ih⟩ := ih
    exact ⟨extra, ih.leaf hev e⟩
  | @group location inner grouped leaves items hinner h ihinner ih =>
    obtain ⟨within, ihinner⟩ := ihinner
    obtain ⟨extra, ih⟩ := ih
    refine ⟨within + 1 + extra, ?_⟩
    intro limit limit' fuel fuel' depth depth' hfuel hdepth hroom path path' count count' found
      found' s t hst
    rw [run_items_cons, run_items_append]
    refine below_bind ?_ fun cells cells' s t hst =>
      ih (by omega) hdepth (by omega) _ _ _ _ cells cells' hst
    obtain ⟨fuel', rfl⟩ := Nat.exists_eq_add_of_le' (show 1 ≤ fuel' by omega)
    rw [(ev.withDepth limit').run_group (show depth' < limit' by omega)]
    exact below_ofGroup (ihinner (by omega) hdepth (by omega) _ _ _ _ found #[] hst) found' location

end Matched

end Evaluator

end NetDesc
