import NetDesc.Members
import NetDesc.Proofs.Matching.Relation
import NetDesc.Proofs.Run.Calls

namespace NetDesc

variable {α β γ δ : Type}

/-- The runs end in the same way. What was made on the way corresponds from then on. -/
inductive Outcome.Corresponds (K : Comparison) (m : Matching) (Q : Matching → α → β → Prop) :
    Outcome α → Outcome β → Prop
  | value {n : Matching} (hmn : m ≤ n) {s t : Store} (hst : s.Corresponds K n t) {a : α} {b : β}
      (h : Q n a b) : Corresponds K m Q (.value a s) (.value b t)
  | error (e : EvalError) {n : Matching} (hmn : m ≤ n) {s t : Store} (hst : s.Corresponds K n t) :
      Corresponds K m Q (.error e s) (.error e t)
  | exhausted : Corresponds K m Q .exhausted .exhausted

namespace Outcome.Corresponds

variable {K : Comparison} {m n : Matching} {Q : Matching → α → β → Prop} {o : Outcome α}
  {o' : Outcome β}

/-- What corresponds to begin with is part of what does in the end. -/
theorem after (hmn : m ≤ n) (h : o.Corresponds K n Q o') : o.Corresponds K m Q o' := by
  cases h with
  | value hn hst h => exact .value (le_trans hmn hn) hst h
  | error e hn hst => exact .error e (le_trans hmn hn) hst
  | exhausted => exact .exhausted

theorem bind {R : Matching → γ → δ → Prop} {k : α → Store → Outcome γ}
    {l : β → Store → Outcome δ} (h : o.Corresponds K m Q o')
    (hkl : ∀ {n a b s t}, m ≤ n → Q n a b → s.Corresponds K n t →
      (k a s).Corresponds K n R (l b t)) : (o.bind k).Corresponds K m R (o'.bind l) := by
  cases h with
  | value hmn hst h => exact (hkl hmn h hst).after hmn
  | error e hmn hst => exact .error e hmn hst
  | exhausted => exact .exhausted

theorem through (h : o.Corresponds K m Q o') {l l' : Location} (hl : l = l') :
    (o.through l).Corresponds K m Q (o'.through l') := by
  rw [hl]
  cases h with
  | value hmn hst h => exact .value hmn hst h
  | error e hmn hst => exact .error _ hmn hst
  | exhausted => exact .exhausted

theorem settle {o o' : Outcome Value} (h : o.Corresponds K m (Value.Corresponds K) o')
    {c d : CellId} (hcd : m .cell c d) :
    (Evaluator.settle c o).Corresponds K m (Value.Corresponds K) (Evaluator.settle d o') := by
  cases h with
  | value hmn hst h => exact .value hmn (hst.setProgress (hmn _ _ _ hcd) (.finished h)) h
  | error e hmn hst => exact .error e hmn (hst.setProgress (hmn _ _ _ hcd) .pending)
  | exhausted => exact .exhausted

end Outcome.Corresponds

/-- What is rendered has to show its members in the same order. -/
inductive Call.Corresponds (K : Comparison) (m : Matching) : Call → Call → Prop
  | perform {k l : Task} (h : k.Corresponds K m l) : Corresponds K m (.perform k) (.perform l)
  | force {c d : CellId} (h : m .cell c d) : Corresponds K m (.force c) (.force d)
  | render (hordered : K.ordered) (spec : FormatSpec) {v w : Value} (h : v.Corresponds K m w) :
      Corresponds K m (.render spec v) (.render spec w)
  | tie {work work' visited visited' : List Object}
      (hwork : List.Forall₂ (Object.Corresponds m) work work')
      (hvisited : List.Forall₂ (Object.Corresponds m) visited visited') :
      Corresponds K m (.tie work visited) (.tie work' visited')

/-- Answers that correspond. Only calls of one kind have any. -/
def Call.RepliesCorrespond (K : Comparison) :
    (c d : Call) → Matching → c.Reply → d.Reply → Prop
  | .perform _, .perform _ => fun m v w => Value.Corresponds K m v w
  | .force _, .force _ => fun m v w => Value.Corresponds K m v w
  | .render _ _, .render _ _ => fun _ a b => a = b
  | .tie _ _, .tie _ _ => fun m xs ys => List.Forall₂ (Object.Corresponds m) xs ys
  | _, _ => fun _ _ _ => False

/-- Two ways to carry out calls that answer calls that correspond alike. -/
structure Carriers (K : Comparison) where
  left : (c : Call) → Store → Outcome c.Reply
  right : (c : Call) → Store → Outcome c.Reply
  corresponds : ∀ {m : Matching} {c d : Call} {s t : Store}, c.Corresponds K m d →
    s.Corresponds K m t →
      (left c s).Corresponds K m (c.RepliesCorrespond K d) (right d t)

namespace Program

/-- From stores that correspond both programs end in the same way, with results as `Q` says and
    in stores that correspond again, whoever carries out their calls. They need not take the same
    steps. -/
def Corresponds (K : Comparison) (m : Matching) (Q : Matching → α → β → Prop) (p : Program α)
    (q : Program β) : Prop :=
  ∀ (C : Carriers K) {s t : Store}, s.Corresponds K m t →
    (p.run C.left s).Corresponds K m Q (q.run C.right t)

/-- The programs give values that correspond. -/
abbrev CorrespondsValue (K : Comparison) (m : Matching) (p q : Program Value) : Prop :=
  p.Corresponds K m (Value.Corresponds K) q

/-- The programs give the same. -/
abbrev CorrespondsEq (K : Comparison) (m : Matching) (p q : Program α) : Prop :=
  p.Corresponds K m (fun _ => Eq) q

/-- Checks that both pass, with results as `Q` says, or fail with the same error. -/
inductive ChecksCorrespond (Q : α → β → Prop) : Except EvalError α → Except EvalError β → Prop
  | ok {a : α} {b : β} (h : Q a b) : ChecksCorrespond Q (.ok a) (.ok b)
  | error (e : EvalError) : ChecksCorrespond Q (.error e) (.error e)

theorem ChecksCorrespond.bind {Q : α → β → Prop} {R : γ → δ → Prop} {x : Except EvalError α}
    {y : Except EvalError β} {k : α → Except EvalError γ} {l : β → Except EvalError δ}
    (hxy : ChecksCorrespond Q x y) (hkl : ∀ a b, Q a b → ChecksCorrespond R (k a) (l b)) :
    ChecksCorrespond R (x >>= k) (y >>= l) := by
  cases hxy with
  | ok h => exact hkl _ _ h
  | error e => exact .error e

theorem ChecksCorrespond.bind_eq {R : γ → δ → Prop} {x y : Except EvalError α}
    {k : α → Except EvalError γ} {l : α → Except EvalError δ} (hxy : ChecksCorrespond Eq x y)
    (hkl : ∀ a, ChecksCorrespond R (k a) (l a)) : ChecksCorrespond R (x >>= k) (y >>= l) :=
  hxy.bind fun a _ h => h ▸ hkl a

variable {K : Comparison} {m : Matching} {Q : Matching → α → β → Prop}
  {R : Matching → γ → δ → Prop}

namespace Corresponds

variable {p : Program α} {q : Program β} {k : α → Program γ} {l : β → Program δ}

theorem pure {a : α} {b : β} (h : Q m a b) :
    (Pure.pure a : Program α).Corresponds K m Q (Pure.pure b) :=
  fun _ _ _ hst => .value le_rfl hst h

theorem raise (e : EvalError) :
    (Program.raise e : Program α).Corresponds K m Q (Program.raise e) :=
  fun _ _ _ hst => .error e le_rfl hst

theorem bind (hpq : p.Corresponds K m Q q)
    (hkl : ∀ n a b, m ≤ n → Q n a b → (k a).Corresponds K n R (l b)) :
    (p >>= k).Corresponds K m R (q >>= l) := by
  intro C s t hst
  rw [run_bind, run_bind]
  exact (hpq C hst).bind fun hmn hQ hst' => hkl _ _ _ hmn hQ C hst'

theorem bind_eq {p q : Program α} {k : α → Program γ} {l : α → Program δ}
    (hpq : p.CorrespondsEq K m q) (hkl : ∀ n a, m ≤ n → (k a).Corresponds K n R (l a)) :
    (p >>= k).Corresponds K m R (q >>= l) :=
  hpq.bind fun n a _ hmn h => h ▸ hkl n a hmn

/-- What is known of stores that correspond may be used. -/
theorem of_store (h : ∀ {s t : Store}, s.Corresponds K m t → p.Corresponds K m Q q) :
    p.Corresponds K m Q q :=
  fun C _ _ hst => h hst C hst

/-- Both programs take the same branch. -/
theorem ite {c d : Prop} [Decidable c] [Decidable d] (hcd : c ↔ d) {p p' : Program α}
    {q q' : Program β} (hpq : p.Corresponds K m Q q) (hpq' : p'.Corresponds K m Q q') :
    (if c then p else p').Corresponds K m Q (if d then q else q') := by
  by_cases hc : c
  · rwa [if_pos hc, if_pos (hcd.1 hc)]
  · rwa [if_neg hc, if_neg (mt hcd.2 hc)]

theorem ofExcept {Q : α → β → Prop} {x : Except EvalError α} {y : Except EvalError β}
    (hxy : ChecksCorrespond Q x y) :
    (Program.ofExcept x).Corresponds K m (fun _ => Q) (Program.ofExcept y) := by
  cases hxy with
  | ok h => exact pure h
  | error e => exact raise e

/-- Checks come before what the programs do with what passes them. -/
theorem check {Q : α → β → Prop} {x : Except EvalError α} {y : Except EvalError β}
    (hxy : ChecksCorrespond Q x y) (hkl : ∀ a b, Q a b → (k a).Corresponds K m R (l b)) :
    (Program.ofExcept x >>= k).Corresponds K m R (Program.ofExcept y >>= l) := by
  cases hxy with
  | ok h => exact hkl _ _ h
  | error e => exact raise e

theorem check_eq {x y : Except EvalError α} {k : α → Program γ} {l : α → Program δ}
    (hxy : ChecksCorrespond Eq x y) (hkl : ∀ a, (k a).Corresponds K m R (l a)) :
    (Program.ofExcept x >>= k).Corresponds K m R (Program.ofExcept y >>= l) :=
  check hxy fun a _ h => h ▸ hkl a

end Corresponds

section Steps

theorem step_corresponds (a a' : Access) {Q : Matching → a.Reply → a'.Reply → Prop}
    (h : ∀ {s t : Store}, s.Corresponds K m t → ∃ n, m ≤ n ∧ Q n (a.perform s).1 (a'.perform t).1 ∧
      (a.perform s).2.Corresponds K n (a'.perform t).2) :
    (step a).Corresponds K m Q (step a') := by
  intro C s t hst
  obtain ⟨n, hmn, hQ, hst'⟩ := h hst
  exact .value hmn hst' hQ

variable {i j : Nat}

theorem readCell_corresponds (hij : m .cell i j) :
    (readCell i).Corresponds K m (Cell.Corresponds K) (readCell j) :=
  step_corresponds (.readCell i) (.readCell j) fun hst => ⟨m, le_rfl, hst.cell hij, hst⟩

theorem readRecord_corresponds (hij : m .record i j) :
    (readRecord i).Corresponds K m (Record.Corresponds K) (readRecord j) :=
  step_corresponds (.readRecord i) (.readRecord j) fun hst => ⟨m, le_rfl, hst.record hij, hst⟩

theorem find_corresponds (hij : m .record i j) (name : String) :
    (find i name).Corresponds K m (fun n => Option.Rel (Member.Corresponds n)) (find j name) :=
  step_corresponds (.find i name) (.find j name) fun hst => ⟨m, le_rfl, hst.find? hij name, hst⟩

theorem readNode_corresponds (hij : m .node i j) :
    (readNode i).Corresponds K m Node.Corresponds (readNode j) :=
  step_corresponds (.readNode i) (.readNode j) fun hst => ⟨m, le_rfl, hst.node hij, hst⟩

theorem readNetwork_corresponds (hij : m .network i j) :
    (readNetwork i).Corresponds K m Network.Corresponds (readNetwork j) :=
  step_corresponds (.readNetwork i) (.readNetwork j) fun hst => ⟨m, le_rfl, hst.network hij, hst⟩

theorem children_corresponds {o u : Object} (ho : o.Corresponds m u) :
    (children o).Corresponds K m (fun n => List.Forall₂ (Object.Corresponds n)) (children u) :=
  step_corresponds (.children o) (.children u) fun hst => ⟨m, le_rfl, hst.children ho, hst⟩

theorem describe_corresponds {o u : Object} (ho : o.Corresponds m u) :
    (describe o).CorrespondsEq K m (describe u) :=
  step_corresponds (.describe o) (.describe u) fun hst => ⟨m, le_rfl, hst.describe_eq ho, hst⟩

theorem newCell_corresponds {c d : Cell} (hcd : c.Corresponds K m d) :
    (newCell c).Corresponds K m (· .cell) (newCell d) :=
  step_corresponds (.newCell c) (.newCell d) fun {s t} hst =>
    ⟨m.next .cell s t, m.le_next .cell s t, m.next_new .cell s t, hst.push (T := .cell) hcd⟩

theorem newRecord_corresponds {parent parent' : Option RecordId}
    (hparent : Option.Rel (m .record) parent parent') :
    (newRecord parent).Corresponds K m (· .record) (newRecord parent') := by
  refine step_corresponds (.newRecord parent) (.newRecord parent') fun {s t} hst =>
    ⟨m.next .record s t, m.le_next .record s t, m.next_new .record s t, ?_⟩
  refine hst.push (T := .record) ⟨fun _ => .none, fun _ => .nil, ?_⟩
  cases hparent with
  | none => exact .nil
  | some h => exact .cons h (hst.record h).enclosing

theorem newNode_corresponds {n k : Node} (h : n.Corresponds m k) :
    (newNode n).Corresponds K m (· .node) (newNode k) :=
  step_corresponds (.newNode n) (.newNode k) fun {s t} hst =>
    ⟨m.next .node s t, m.le_next .node s t, m.next_new .node s t, hst.push (T := .node) h⟩

theorem newNetwork_corresponds {n k : Network} (h : n.Corresponds m k) :
    (newNetwork n).Corresponds K m (· .network) (newNetwork k) :=
  step_corresponds (.newNetwork n) (.newNetwork k) fun {s t} hst => ⟨m.next .network s t,
    m.le_next .network s t, m.next_new .network s t, hst.push (T := .network) h⟩

theorem newAction_corresponds (a : Action) :
    (newAction a).Corresponds K m (· .action) (newAction a) :=
  step_corresponds (.newAction a) (.newAction a) fun {s t} hst =>
    ⟨m.next .action s t, m.le_next .action s t, m.next_new .action s t, hst.push (T := .action) rfl⟩

theorem addMember_corresponds (hij : m .record i j) (name : String) {x y : Member}
    (hxy : x.Corresponds m y) :
    (addMember i name x).CorrespondsEq K m (addMember j name y) :=
  step_corresponds (.addMember i name x) (.addMember j name y) fun hst => ⟨m, le_rfl, rfl,
    hst.modify (T := .record) hij fun _ _ hrk => Record.Corresponds.add hrk name hxy⟩

theorem tieInput_corresponds (hij : m .node i j) {input input' : NodeId}
    (hinput : m .node input input') :
    (tieInput i input).CorrespondsEq K m (tieInput j input') := by
  refine step_corresponds (.tieInput i input) (.tieInput j input') fun hst => ⟨m, le_rfl, rfl, ?_⟩
  refine hst.modify (T := .node) hij fun n k (hnk : Node.Corresponds m n k) => ?_
  exact {
    operation := hnk.operation
    name := hnk.name
    tag := hnk.tag
    settings := hnk.settings
    inputs := List.rel_append hnk.inputs (.cons hinput .nil)
    pendingInput := .none }

theorem rename_corresponds {o u : Object} (ho : o.Corresponds m u) (name : String) :
    (rename o name).CorrespondsEq K m (rename u name) := by
  refine step_corresponds (.rename o name) (.rename u name) fun hst => ⟨m, le_rfl, rfl, ?_⟩
  cases ho with
  | node h => exact hst.modify (T := .node) h fun _ _ hnk => { hnk with name := rfl }
  | network h => exact hst
  | action h =>
    refine hst.modify (T := .action) h fun a b (hab : a = b) => ?_
    exact congrArg (fun a : Action => { a with name }) hab

theorem print_corresponds (line : String) :
    (print line).CorrespondsEq K m (print line) :=
  step_corresponds (.print line) (.print line) fun hst => ⟨m, le_rfl, rfl, hst.print line⟩

theorem call_corresponds {c d : Call} (h : c.Corresponds K m d) :
    (call c done).Corresponds K m (c.RepliesCorrespond K d) (call d done) := by
  intro C s t hst
  rw [run_call, run_call]
  exact C.corresponds h hst

theorem evaluate_corresponds {e e' : Expr} (he : K.expr e e') (hij : m .record i j)
    (path : String) : (evaluate e i path).CorrespondsValue K m (evaluate e' j path) :=
  call_corresponds (.perform (.evaluate he hij path))

theorem evaluatePart_corresponds {e e' : Expr} (he : K.expr e e') (hij : m .record i j)
    (path id : String) :
    (evaluatePart e i path id).CorrespondsValue K m (evaluatePart e' j path id) :=
  evaluate_corresponds he hij (joinPath path id)

theorem force_corresponds (hij : m .cell i j) : (force i).CorrespondsValue K m (force j) :=
  call_corresponds (.force hij)

theorem render_corresponds (hordered : K.ordered) (spec : FormatSpec) {v w : Value}
    (h : v.Corresponds K m w) : (render spec v).CorrespondsEq K m (render spec w) :=
  call_corresponds (.render hordered spec h)

theorem tie_corresponds {work work' visited visited' : List Object}
    (hwork : List.Forall₂ (Object.Corresponds m) work work')
    (hvisited : List.Forall₂ (Object.Corresponds m) visited visited') :
    (tie work visited).Corresponds K m (fun n => List.Forall₂ (Object.Corresponds n))
      (tie work' visited') :=
  call_corresponds (.tie hwork hvisited)

theorem suspend_corresponds {e e' : Expr} (he : K.expr e e') (hij : m .record i j)
    (path : String) : (suspend e i path).Corresponds K m (· .cell) (suspend e' j path) := by
  unfold suspend
  rw [K.expr_location he]
  exact newCell_corresponds (.suspended (.evaluate he hij path) _ path)

theorem ready_corresponds {v w : Value} (h : v.Corresponds K m w) :
    (newCell (.ready v)).Corresponds K m (· .cell) (newCell (.ready w)) :=
  newCell_corresponds (.ready h)

theorem addValue_corresponds (hij : m .record i j) (name : String) {v w : Value}
    (h : v.Corresponds K m w) : (addValue i name v).CorrespondsEq K m (addValue j name w) :=
  .bind (ready_corresponds h) fun _ _ _ hmn hcd =>
    addMember_corresponds (hmn _ _ _ hij) name ⟨h.location, hcd⟩

end Steps

section Members

theorem cell_rel {x y : Option Member} (h : Option.Rel (Member.Corresponds m) x y) :
    Option.Rel (m .cell) (x.map (·.cell)) (y.map (·.cell)) := by
  cases h with
  | none => exact .none
  | some h => exact .some h.cell

theorem forceFound_corresponds {found found' : Option CellId}
    (hfound : Option.Rel (m .cell) found found') (missing : EvalError) :
    (forceFound found missing).CorrespondsValue K m (forceFound found' missing) := by
  cases hfound with
  | none => exact .raise missing
  | some h => exact force_corresponds h

variable {i j : Nat}

theorem lookup_corresponds (hij : m .record i j) (name : String) (location : Location) :
    (lookup i name location).CorrespondsValue K m (lookup j name location) :=
  .bind (find_corresponds hij name) fun _ _ _ _ hfound =>
    forceFound_corresponds (cell_rel hfound) _

theorem fieldCell_corresponds (hij : m .record i j) (name : String) :
    (fieldCell i name).Corresponds K m (fun n => Option.Rel (n .cell)) (fieldCell j name) :=
  .bind (readRecord_corresponds hij) fun _ _ _ _ hrk => .pure (cell_rel (hrk.found name))

theorem field_corresponds (hij : m .record i j) (name : String) :
    (field i name).CorrespondsValue K m (field j name) :=
  .bind (fieldCell_corresponds hij name) fun _ _ _ _ hfound => forceFound_corresponds hfound _

theorem optionalField_corresponds (hij : m .record i j) (name : String) :
    (optionalField i name).Corresponds K m (fun n => Option.Rel (Value.Corresponds K n))
      (optionalField j name) := by
  refine .bind (fieldCell_corresponds hij name) fun n found found' _ hfound => ?_
  cases hfound with
  | none => exact .pure .none
  | some h => exact .bind (force_corresponds h) fun _ _ _ _ hvw => .pure (.some hvw)

theorem forceAll_corresponds {cells cells' : List CellId}
    (h : List.Forall₂ (m .cell) cells cells') :
    (forceAll cells).Corresponds K m (fun n => List.Forall₂ (Value.Corresponds K n))
      (forceAll cells') := by
  unfold forceAll
  induction cells generalizing m cells' with
  | nil =>
    cases h
    exact .pure .nil
  | cons cell cells ih =>
    cases h with
    | cons hcell hcells =>
      simp only [List.mapM_cons]
      refine .bind (force_corresponds hcell) fun n v w hmn hvw => ?_
      refine .bind (ih (hcells.imp fun _ _ hc => hmn _ _ _ hc)) fun n' vs ws hnn hvs => ?_
      exact .pure (.cons (hvw.mono hnn) hvs)

/-- Networks that correspond have nodes that do under the same names. -/
theorem network_find?_rel {x y : Network} (h : x.Corresponds m y) (name : String) :
    Option.Rel (m .node) (x.find? name) (y.find? name) := by
  have hnodes := h.nodes
  unfold Network.find?
  generalize x.nodes = xs at hnodes ⊢
  generalize y.nodes = ys at hnodes ⊢
  induction hnodes with
  | nil => exact .none
  | @cons a b as bs hab _ ih =>
    obtain ⟨name', node⟩ := a
    obtain ⟨name'', node'⟩ := b
    obtain ⟨rfl, hnode⟩ : name' = name'' ∧ m .node node node' := hab
    rw [List.lookup_cons, List.lookup_cons]
    split
    · exact .some hnode
    · exact ih

theorem networkMember_corresponds (hij : m .network i j) (name : String) :
    (networkMember i name).Corresponds K m (fun n => Option.Rel (n .cell))
      (networkMember j name) := by
  refine .bind (readNetwork_corresponds hij) fun n x y _ hxy => ?_
  have hfound := network_find?_rel hxy name
  generalize x.find? name = a at hfound ⊢
  generalize y.find? name = b at hfound ⊢
  cases hfound with
  | none => exact fieldCell_corresponds hxy.fields name
  | some hnode =>
    refine .bind (ready_corresponds ⟨.object (.node hnode), hxy.location, rfl⟩) ?_
    exact fun _ _ _ _ hcell => .pure (.some hcell)

theorem memberOf_corresponds {v w : Value} (h : v.Corresponds K m w) (name : String)
    (location : Location) :
    (memberOf v name location).CorrespondsValue K m (memberOf w name location) := by
  have hmember {find find' : Program (Option CellId)}
      (hfind : find.Corresponds K m (fun n => Option.Rel (n .cell)) find') :
      (find >>= fun found => forceFound found (.unknownIdentifier name location)).CorrespondsValue
        K m (find' >>= fun found => forceFound found (.unknownIdentifier name location)) :=
    .bind hfind fun _ _ _ _ hfound => forceFound_corresponds hfound _
  obtain ⟨x, place, path⟩ := v
  obtain ⟨y, place', path'⟩ := w
  cases h.payload with
  | record hij =>
    exact hmember (.bind (find_corresponds hij name) fun _ _ _ _ hfound => .pure (cell_rel hfound))
  | object ho =>
    cases ho with
    | network hij => exact hmember (networkMember_corresponds hij name)
    | _ => exact .raise _
  | _ => exact .raise _

end Members

end Program

namespace Value.Corresponds

open Program (ChecksCorrespond)

variable {K : Comparison} {m : Matching} {v w : Value}

theorem mismatch {Q : α → β → Prop} (h : v.Corresponds K m w) (expected : String) :
    ChecksCorrespond Q (.error (v.mismatch expected)) (.error (w.mismatch expected)) := by
  rw [Value.mismatch, Value.mismatch, h.typeName_eq, h.location]
  exact .error _

theorem asNumber (h : v.Corresponds K m w) : ChecksCorrespond Eq v.asNumber w.asNumber := by
  have hmismatch := h.mismatch (Q := @Eq Float) "number"
  obtain ⟨x, l, path⟩ := v
  obtain ⟨y, l', path'⟩ := w
  cases h.payload with
  | number x => exact .ok rfl
  | _ => exact hmismatch

theorem asTruth (h : v.Corresponds K m w) : ChecksCorrespond Eq v.asTruth w.asTruth := by
  have hmismatch := h.mismatch (Q := @Eq Bool) "boolean"
  obtain ⟨x, l, path⟩ := v
  obtain ⟨y, l', path'⟩ := w
  cases h.payload with
  | truth b => exact .ok rfl
  | _ => exact hmismatch

theorem asText (h : v.Corresponds K m w) : ChecksCorrespond Eq v.asText w.asText := by
  have hmismatch := h.mismatch (Q := @Eq String) "string"
  obtain ⟨x, l, path⟩ := v
  obtain ⟨y, l', path'⟩ := w
  cases h.payload with
  | text s => exact .ok rfl
  | _ => exact hmismatch

theorem asRecord (h : v.Corresponds K m w) :
    ChecksCorrespond (m .record) v.asRecord w.asRecord := by
  have hmismatch := h.mismatch (Q := m .record) "record"
  obtain ⟨x, l, path⟩ := v
  obtain ⟨y, l', path'⟩ := w
  cases h.payload with
  | record hij => exact .ok hij
  | _ => exact hmismatch

theorem asArray (h : v.Corresponds K m w) :
    ChecksCorrespond (LazyArray.Corresponds m) v.asArray w.asArray := by
  have hmismatch := h.mismatch (Q := LazyArray.Corresponds m) "array"
  obtain ⟨x, l, path⟩ := v
  obtain ⟨y, l', path'⟩ := w
  cases h.payload with
  | array ha => exact .ok ha
  | _ => exact hmismatch

theorem asFunction (h : v.Corresponds K m w) :
    ChecksCorrespond (Function.Corresponds K m) v.asFunction w.asFunction := by
  have hmismatch := h.mismatch (Q := Function.Corresponds K m) "function"
  obtain ⟨x, l, path⟩ := v
  obtain ⟨y, l', path'⟩ := w
  cases h.payload with
  | function hf => exact .ok hf
  | _ => exact hmismatch

theorem asNode (h : v.Corresponds K m w) : ChecksCorrespond (m .node) v.asNode w.asNode := by
  have hmismatch := h.mismatch (Q := m .node) "ComputationNode"
  obtain ⟨x, l, path⟩ := v
  obtain ⟨y, l', path'⟩ := w
  cases h.payload with
  | object ho =>
    cases ho with
    | node hij => exact .ok hij
    | _ => exact hmismatch
  | _ => exact hmismatch

theorem asIndex (h : v.Corresponds K m w) : ChecksCorrespond Eq v.asIndex w.asIndex := by
  refine .bind_eq h.asNumber fun x => ?_
  rw [h.location]
  cases Number.toIndex? x with
  | some i => exact .ok rfl
  | none => exact .error _

end Value.Corresponds

end NetDesc
