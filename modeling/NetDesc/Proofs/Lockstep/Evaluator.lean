import NetDesc.Proofs.Lockstep.Program
import NetDesc.Session

namespace NetDesc

namespace Value.Alike

open Program (ChecksAlike)

variable {p : Pairing} {v w : Value}

theorem mismatch_alike {α β : Type} {R : α → β → Prop} (h : v.Alike p w) (expected : String) :
    ChecksAlike R (.error (v.mismatch expected)) (.error (w.mismatch expected)) := by
  rw [Value.mismatch, Value.mismatch, h.typeName_eq, h.location]
  exact .error trivial

theorem asNumber (h : v.Alike p w) : ChecksAlike (· = ·) v.asNumber w.asNumber := by
  obtain ⟨x, l, path⟩ := v
  obtain ⟨y, l', path'⟩ := w
  cases h.payload with
  | number x => exact .ok rfl
  | _ => exact h.mismatch_alike "number"

theorem asTruth (h : v.Alike p w) : ChecksAlike (· = ·) v.asTruth w.asTruth := by
  obtain ⟨x, l, path⟩ := v
  obtain ⟨y, l', path'⟩ := w
  cases h.payload with
  | truth x => exact .ok rfl
  | _ => exact h.mismatch_alike "boolean"

theorem asArray (h : v.Alike p w) :
    ChecksAlike (fun a b => a.first = b.first ∧ List.Forall₂ p.cell a.cells.toList b.cells.toList)
      v.asArray w.asArray := by
  obtain ⟨x, l, path⟩ := v
  obtain ⟨y, l', path'⟩ := w
  cases h.payload with
  | array hfirst hcells => exact .ok ⟨hfirst, hcells⟩
  | _ => exact h.mismatch_alike "array"

theorem asFunction (h : v.Alike p w) :
    ChecksAlike (Function.Alike p) v.asFunction w.asFunction := by
  obtain ⟨x, l, path⟩ := v
  obtain ⟨y, l', path'⟩ := w
  cases h.payload with
  | function hx => exact .ok hx
  | _ => exact h.mismatch_alike "function"

theorem asIndex (h : v.Alike p w) : ChecksAlike (· = ·) v.asIndex w.asIndex := by
  refine h.asNumber.bind ?_
  rintro x _ rfl
  rw [h.location]
  split
  · exact .ok rfl
  · exact .error trivial

end Value.Alike

namespace Program

variable {base : Nat} {p : Pairing}

theorem forceFound_givesAlike {found found' : Option CellId}
    (hfound : Option.Rel p.cell found found') {missing : EvalError} (hmissing : missing.IsRaised) :
    (forceFound found missing).GivesAlike (forceFound found' missing) base p := by
  cases hfound with
  | some h => exact force_givesAlike h
  | none => exact .raise hmissing

theorem map_cell_rel {m n : Option Member} (h : Option.Rel (Member.Alike p) m n) :
    Option.Rel p.cell (m.map (·.cell)) (n.map (·.cell)) := by
  cases h with
  | some h => exact .some h.cell
  | none => exact .none

/-- A name leads to cells that correspond, or nowhere on both sides. -/
theorem lookup_givesAlike {scope scope' : RecordId} (hscope : p.record scope scope')
    (name : String) (location : Location) :
    (lookup scope name location).GivesAlike (lookup scope' name location) base p := by
  refine .bind (find_matches hscope name) ?_
  rintro b q m n - ⟨rfl, rfl, hmn⟩
  exact forceFound_givesAlike (map_cell_rel hmn) trivial

theorem field_givesAlike {r k : RecordId} (hrk : p.record r k) (name : String) :
    (field r name).GivesAlike (field k name) base p := by
  refine .bind (Q := fun b q m n => q = p ∧ Option.Rel p.cell m n) ?_ ?_
  · refine .bind (readRecord_matches hrk) ?_
    rintro b q x y - ⟨rfl, rfl, hxy⟩
    exact .pure ⟨rfl, map_cell_rel (hxy.find? name)⟩
  · rintro b q m n - ⟨rfl, hmn⟩
    exact forceFound_givesAlike hmn trivial

/-- Only records have members here. -/
theorem memberOf_givesAlike {v w : Value} (hvw : v.Alike p w) (name : String)
    (location : Location) :
    (memberOf v name location).GivesAlike (memberOf w name location) base p := by
  have hmismatch :
      (Program.raise (.typeMismatch "record" v.typeName location) : Program Value).GivesAlike
        (.raise (.typeMismatch "record" w.typeName location)) base p := by
    rw [hvw.typeName_eq]
    exact .raise trivial
  obtain ⟨x, l, path⟩ := v
  obtain ⟨y, l', path'⟩ := w
  cases hvw.payload with
  | record hscope =>
    refine .bind (Q := fun _ q m n => q = p ∧ Option.Rel p.cell m n) ?_ ?_
    · refine .bind (find_matches hscope name) ?_
      rintro b q m n - ⟨rfl, rfl, hmn⟩
      exact .pure ⟨rfl, map_cell_rel hmn⟩
    · rintro b q m n - ⟨rfl, hmn⟩
      exact forceFound_givesAlike hmn trivial
  | _ => exact hmismatch

end Program

namespace Function

variable {base : Nat} {p : Pairing}

/-- Named values that are alike. -/
abbrev NamedAlike (p : Pairing) : List (String × Value) → List (String × Value) → Prop :=
  List.Forall₂ fun x y => x.1 = y.1 ∧ x.2.Alike p y.2

theorem NamedAlike.mono {q : Pairing} (hpq : p ≤ q) {args args' : List (String × Value)}
    (h : NamedAlike p args args') : NamedAlike q args args' :=
  h.imp fun _ _ hxy => ⟨hxy.1, hxy.2.mono hpq⟩

theorem bindPositional_matches {scope scope' : RecordId} (hsole : p.Sole scope scope')
    (hopen : base ≤ scope') {args args' : List (String × Value)} (hargs : NamedAlike p args args') :
    (bindPositional scope args).Matches (fun b q _ _ => b = base ∧ q.record = p.record)
      (bindPositional scope' args') base p := by
  induction args generalizing p args' with
  | nil =>
    cases hargs
    exact .pure ⟨rfl, rfl⟩
  | cons x args ih =>
    cases hargs with
    | @cons _ y _ args' hxy hargs =>
      obtain ⟨name, v⟩ := x
      obtain ⟨name', w⟩ := y
      obtain ⟨rfl, hvw⟩ := hxy
      refine .bind (Program.addValue_matches hsole hopen name hvw) ?_
      rintro b q - - hpq ⟨rfl, hrecord⟩
      have hsole' : q.Sole scope scope' := by rwa [Pairing.Sole, hrecord]
      rw [← hrecord]
      exact ih hsole' (NamedAlike.mono hpq hargs)

theorem NamedAlike.any_eq {args args' : List (String × Value)} (h : NamedAlike p args args')
    (name : String) : args.any (·.1 == name) = args'.any (·.1 == name) :=
  any_name_eq (h.imp fun _ _ hxy => hxy.1) name

/-- Defaults that are the same cells. -/
abbrev DefaultsAlike (p : Pairing) : List (String × CellId) → List (String × CellId) → Prop :=
  List.Forall₂ fun x y => x.1 = y.1 ∧ p.cell x.2 y.2

theorem DefaultsAlike.mono {q : Pairing} (hpq : p ≤ q) {xs ys : List (String × CellId)}
    (h : DefaultsAlike p xs ys) : DefaultsAlike q xs ys :=
  h.imp fun _ _ hxy => ⟨hxy.1, hpq.cell hxy.2⟩

theorem bindDefaults_matches {scope scope' : RecordId} (hscope : p.record scope scope')
    (hsole : p.Sole scope scope') (hopen : base ≤ scope') {passed passed' : List (String × Value)}
    (hpassed : NamedAlike p passed passed') {named named' : List (String × CellId)}
    (hnamed : DefaultsAlike p named named') :
    (bindDefaults scope passed named).Matches (fun b q _ _ => b = base ∧ q.record = p.record)
      (bindDefaults scope' passed' named') base p := by
  induction hnamed with
  | nil => exact .pure ⟨rfl, rfl⟩
  | @cons x y named named' hxy _ ih =>
    obtain ⟨name, cell⟩ := x
    obtain ⟨name', cell'⟩ := y
    obtain ⟨rfl, hcell⟩ := hxy
    refine .bind (Program.readRecord_matches hscope) ?_
    rintro b q r k - ⟨rfl, rfl, hrk⟩
    dsimp only
    rw [hpassed.any_eq name, hrk.contains_eq name]
    split
    · exact ih
    · refine .bind (Program.readCell_matches hcell) ?_
      rintro b q c d - ⟨rfl, rfl, hcd⟩
      refine .bind (Program.addMember_matches hsole hopen name ⟨hcd.location, hcell⟩) ?_
      rintro b q - - - ⟨rfl, rfl⟩
      exact ih

theorem bindNamed_matches {scope scope' : RecordId} (hscope : p.record scope scope')
    (hsole : p.Sole scope scope') (hopen : base ≤ scope') (location : Location)
    {args args' : List (String × Value)} (hargs : NamedAlike p args args') :
    (bindNamed scope location args).Matches (fun b q _ _ => b = base ∧ q.record = p.record)
      (bindNamed scope' location args') base p := by
  induction args generalizing p args' with
  | nil =>
    cases hargs
    exact .pure ⟨rfl, rfl⟩
  | cons x args ih =>
    cases hargs with
    | @cons _ y _ args' hxy hargs =>
      obtain ⟨name, v⟩ := x
      obtain ⟨name', w⟩ := y
      obtain ⟨rfl, hvw⟩ := hxy
      refine .bind (Program.readRecord_matches hscope) ?_
      rintro b q r k - ⟨rfl, rfl, hrk⟩
      dsimp only
      rw [hrk.contains_eq name]
      split
      · exact .raise trivial
      · refine .bind (Program.addValue_matches hsole hopen name hvw) ?_
        rintro b u - - hqu ⟨rfl, hrecord⟩
        have hsole' : u.Sole scope scope' := by rwa [Pairing.Sole, hrecord]
        rw [← hrecord]
        exact ih (hqu.record hscope) hsole' (NamedAlike.mono hqu hargs)

/-- Both calls are refused for the same reason, or make new records that correspond and hold
    parameters that do. Nothing else refers to these records while arguments are added to them. -/
theorem bindArguments_matches {f g : Function} (hfg : f.Alike p g) {args args' : List Value}
    (hargs : List.Forall₂ (Value.Alike p) args args') {named named' : List (String × Value)}
    (hnamed : NamedAlike p named named') (location : Location) :
    (f.bindArguments args named location).Matches (fun _ q r k => q.record r k)
      (g.bindArguments args' named' location) base p := by
  unfold bindArguments
  rw [hfg.arity_eq, hargs.length_eq]
  split
  · refine .bind (Program.newRecord_matches (.some hfg.scope)) ?_
    rintro b q scope scope' hpq ⟨hopen, hscope, hsole⟩
    rw [hfg.params]
    refine .bind (bindPositional_matches hsole hopen ?_) ?_
    · exact zip_names (hargs.imp fun _ _ h => h.mono hpq) _
    rintro b u - - hqu ⟨rfl, hu⟩
    have hsole' : u.Sole scope scope' := by rwa [Pairing.Sole, hu]
    have hpu := Pairing.le_trans hpq hqu
    refine .bind (bindDefaults_matches (hqu.record hscope) hsole' hopen
      (NamedAlike.mono hpu hnamed) (DefaultsAlike.mono hpu hfg.named)) ?_
    rintro b w - - huw ⟨rfl, hw⟩
    have hsole'' : w.Sole scope scope' := by rwa [Pairing.Sole, hw]
    have hqw := Pairing.le_trans hqu huw
    refine .bind (bindNamed_matches (hqw.record hscope) hsole'' hopen location
      (NamedAlike.mono (Pairing.le_trans hpu huw) hnamed)) ?_
    rintro b x - - hwx -
    exact .pure (hwx.record (hqw.record hscope))
  · exact .raise trivial

/-- Functions that are alike, called with arguments that are alike, evaluate one body in scopes
    that correspond. -/
theorem apply_givesAlike {f g : Function} (hfg : f.Alike p g) {args args' : List Value}
    (hargs : List.Forall₂ (Value.Alike p) args args') {named named' : List (String × Value)}
    (hnamed : NamedAlike p named named') (path : String) (location : Location) :
    (f.apply args named path location).GivesAlike (g.apply args' named' path location) base p := by
  refine .bind (bindArguments_matches hfg hargs hnamed location) ?_
  rintro b q scope scope' hpq hscope
  rw [hfg.body, hfg.name]
  exact Program.evaluatePart_givesAlike _ hscope path _

end Function

namespace Operator

variable {base : Nat} {p : Pairing}

theorem orInvalid_givesAlike (site : Site) {left left' right right' : Value}
    (hleft : left.Alike p left') (hright : right.Alike p right') {result : Option Value}
    (hresult : ∀ v, result = some v → v.Alike p v) :
    (orInvalid site left right result).GivesAlike (orInvalid site left' right' result) base p := by
  cases result with
  | none =>
    unfold orInvalid Site.invalidOperands
    rw [hleft.typeName_eq, hright.typeName_eq]
    exact .raise trivial
  | some v => exact .pure (hresult v rfl)

/-- Operators compute scalars, which refer to nothing. -/
theorem onNumbers?_alike {site : Site} {x y : Float} {v : Value}
    (hv : onNumbers? site x y = some v) : v.Alike p v := by
  simp only [onNumbers?, Option.orElse_eq_orElse, Option.orElse_eq_or, Option.or_eq_some_iff,
    Option.map_eq_some_iff] at hv
  rcases hv with ⟨z, -, rfl⟩ | ⟨-, z, -, rfl⟩
  · exact ⟨.number z, rfl, rfl⟩
  · exact ⟨.truth z, rfl, rfl⟩

theorem onTexts?_alike {site : Site} {x y : String} {v : Value}
    (hv : onTexts? site x y = some v) : v.Alike p v := by
  unfold onTexts? at hv
  split at hv
  · cases hv
    exact ⟨.text _, rfl, rfl⟩
  · obtain ⟨z, -, rfl⟩ := Option.map_eq_some_iff.1 hv
    exact ⟨.truth z, rfl, rfl⟩

theorem onTruths?_alike {site : Site} {a b : Bool} {v : Value}
    (hv : onTruths? site a b = some v) : v.Alike p v := by
  obtain ⟨z, -, rfl⟩ := Option.map_eq_some_iff.1 hv
  exact ⟨.truth z, rfl, rfl⟩

/-- Nothing that is alike to anything is an object, so no operator instantiates a type. -/
theorem apply_givesAlike (r : Registry) (site : Site) {left left' right right' : Value}
    (hleft : left.Alike p left') (hright : right.Alike p right') :
    (apply r site left right).GivesAlike (apply r site left' right') base p := by
  have hinvalid : (Program.raise (site.invalidOperands left right) : Program Value).GivesAlike
      (.raise (site.invalidOperands left' right')) base p := by
    unfold Site.invalidOperands
    rw [hleft.typeName_eq, hright.typeName_eq]
    exact .raise trivial
  have haccepted (pair : OperandPair) (result : Option Value)
      (hresult : ∀ v, result = some v → v.Alike p v) :
      (if pair ∈ r.operators.accepted site.op then orInvalid site left right result
        else .raise (site.invalidOperands left right)).GivesAlike
      (if pair ∈ r.operators.accepted site.op then orInvalid site left' right' result
        else .raise (site.invalidOperands left' right')) base p := by
    split
    · exact orInvalid_givesAlike site hleft hright hresult
    · exact hinvalid
  obtain ⟨x, l, path⟩ := left
  obtain ⟨x', l', path'⟩ := left'
  obtain ⟨y, k, via⟩ := right
  obtain ⟨y', k', via'⟩ := right'
  cases hleft.payload with
  | number x =>
    cases hright.payload with
    | number y => exact haccepted .numbers _ fun v => onNumbers?_alike
    | _ => exact hinvalid
  | text x =>
    cases hright.payload with
    | text y => exact haccepted .texts _ fun v => onTexts?_alike
    | _ => exact hinvalid
  | truth x =>
    cases hright.payload with
    | truth y => exact haccepted .truths _ fun v => onTruths?_alike
    | _ => exact hinvalid
  | _ => cases hright.payload <;> exact hinvalid

end Operator

namespace Evaluator

variable {base : Nat} {p : Pairing}

theorem addMembers_matches {scope scope' : RecordId} (hscope : p.record scope scope')
    (hsole : p.Sole scope scope') (hopen : base ≤ scope') (path : String)
    (members : List Binding) :
    (addMembers scope path members).Matches (fun b q _ _ => b = base ∧ q.record = p.record)
      (addMembers scope' path members) base p := by
  induction members generalizing p with
  | nil => exact .pure ⟨rfl, rfl⟩
  | cons binding rest ih =>
    refine .bind (Program.readRecord_matches hscope) ?_
    rintro b q r k - ⟨rfl, rfl, hrk⟩
    rw [hrk.contains_eq]
    split
    · exact .raise trivial
    · refine .bind (Program.suspend_matches _ hscope _) ?_
      rintro b u c d hqu ⟨rfl, hrecord, hcd⟩
      have hsole' : u.Sole scope scope' := by rwa [Pairing.Sole, hrecord]
      refine .bind (Program.addMember_matches hsole' hopen _ ⟨rfl, hcd⟩) ?_
      rintro b w - - - ⟨rfl, rfl⟩
      rw [← hrecord]
      exact ih (hqu.record hscope) hsole'

theorem putDefault_alike (name : String) {cell cell' : CellId} (hcell : p.cell cell cell')
    {found found' : List (String × CellId)} (hfound : Function.DefaultsAlike p found found') :
    Function.DefaultsAlike p (putDefault name cell found) (putDefault name cell' found') := by
  induction hfound with
  | nil => exact .cons ⟨rfl, hcell⟩ .nil
  | @cons x y found found' hxy hfound ih =>
    obtain ⟨known, other⟩ := x
    obtain ⟨known', other'⟩ := y
    obtain ⟨rfl, hother⟩ := hxy
    unfold putDefault
    dsimp only
    split
    · exact .cons ⟨rfl, hcell⟩ hfound
    · exact .cons ⟨rfl, hother⟩ ih

theorem suspendDefaults_matches {scope scope' : RecordId} (hscope : p.record scope scope')
    (path : String) {found found' : List (String × CellId)}
    (hfound : Function.DefaultsAlike p found found') (named : List Binding) :
    (suspendDefaults scope path found named).Matches (fun _ q xs ys =>
      Function.DefaultsAlike q xs ys) (suspendDefaults scope' path found' named) base p := by
  induction named generalizing base p found found' with
  | nil => exact .pure hfound
  | cons binding rest ih =>
    refine .bind (Program.suspend_matches _ hscope _) ?_
    rintro b q c d hpq ⟨-, -, hcd⟩
    exact ih (hpq.record hscope) (putDefault_alike _ hcd (Function.DefaultsAlike.mono hpq hfound))

theorem evaluateArguments_matches {scope scope' : RecordId} (hscope : p.record scope scope')
    (path : String) {found found' : Array Value}
    (hfound : List.Forall₂ (Value.Alike p) found.toList found'.toList)
    (args : List (Expr × String)) :
    (evaluateArguments scope path found args).Matches (fun _ q vs ws =>
      List.Forall₂ (Value.Alike q) vs ws) (evaluateArguments scope' path found' args) base p := by
  induction args generalizing base p found found' with
  | nil => exact .pure hfound
  | cons arg rest ih =>
    refine .bind (Program.evaluatePart_givesAlike _ hscope path _) ?_
    rintro b q v w hpq hvw
    refine ih (hpq.record hscope) ?_
    simp only [Array.toList_push]
    exact List.rel_append (hfound.imp fun _ _ h => h.mono hpq) (.cons hvw .nil)

theorem evaluateNamed_matches {scope scope' : RecordId} (hscope : p.record scope scope')
    (path : String) {found found' : Array (String × Value)}
    (hfound : Function.NamedAlike p found.toList found'.toList) (named : List Binding) :
    (evaluateNamed scope path found named).Matches (fun _ q vs ws => Function.NamedAlike q vs ws)
      (evaluateNamed scope' path found' named) base p := by
  induction named generalizing base p found found' with
  | nil => exact .pure hfound
  | cons binding rest ih =>
    refine .bind (Program.evaluatePart_givesAlike _ hscope path _) ?_
    rintro b q v w hpq hvw
    dsimp only
    rw [← Array.any_toList, ← Array.any_toList, hfound.any_eq binding.name.name]
    split
    · exact .raise trivial
    · refine ih (hpq.record hscope) ?_
      simp only [Array.toList_push]
      exact List.rel_append (Function.NamedAlike.mono hpq hfound) (.cons ⟨rfl, hvw⟩ .nil)

/-- The function and its arguments are evaluated in the same order on both sides, and what is
    alike stays so while the rest are evaluated. -/
theorem evaluateApply_givesAlike (func : Expr) (args : ArgList) {scope scope' : RecordId}
    (hscope : p.record scope scope') (path : String) (location : Location) :
    (evaluateApply func args scope path location).GivesAlike
      (evaluateApply func args scope' path location) base p := by
  refine .bind (Program.evaluatePart_givesAlike func hscope path _) ?_
  rintro b q v w hpq hvw
  refine .check hvw.asFunction fun f g hfg => ?_
  dsimp only
  rw [hfg.arity_eq, hfg.params]
  split
  · refine .bind (evaluateArguments_matches (hpq.record hscope) path .nil _) ?_
    rintro b u vs ws hqu hvs
    refine .bind (evaluateNamed_matches (hqu.record (hpq.record hscope)) path .nil _) ?_
    rintro b w named named' huw hnamed
    exact Function.apply_givesAlike (hfg.mono (Pairing.le_trans hqu huw))
      (hvs.imp fun _ _ h => h.mono huw) hnamed path location
  · exact .raise trivial

theorem evaluateItems_matches {scope scope' : RecordId} (hscope : p.record scope scope')
    (path : String) (count : Nat) {found found' : Array CellId}
    (hfound : List.Forall₂ p.cell found.toList found'.toList) (items : List Expr) :
    (evaluateItems scope path count found items).Matches
      (fun _ q cs ds => List.Forall₂ q.cell cs.toList ds.toList)
      (evaluateItems scope' path count found' items) base p := by
  induction items generalizing base p found found' count with
  | nil => exact .pure hfound
  | cons item rest ih =>
    refine .bind (Program.evaluatePart_givesAlike item hscope path _) ?_
    rintro b q v w hpq hvw
    have hkept : List.Forall₂ q.cell found.toList found'.toList := hfound.imp fun _ _ => hpq.cell
    have hpush : Program.Matches (fun _ q cs ds => List.Forall₂ q.cell cs.toList ds.toList)
        (do
          let cell ← Program.newCell (.ready v)
          evaluateItems scope path (count + 1) (found.push cell) rest)
        (do
          let cell ← Program.newCell (.ready w)
          evaluateItems scope' path (count + 1) (found'.push cell) rest) b q := by
      refine .bind (Program.ready_matches hvw) ?_
      rintro b u c d hqu ⟨-, -, hcd⟩
      refine ih (hqu.record (hpq.record hscope)) _ ?_
      simp only [Array.toList_push]
      exact List.rel_append (hkept.imp fun _ _ => hqu.cell) (.cons hcd .nil)
    obtain ⟨x, l, place⟩ := v
    obtain ⟨y, l', place'⟩ := w
    cases hvw.payload with
    | array hfirst hcells =>
      refine ih (hpq.record hscope) _ ?_
      simp only [Array.toList_append]
      exact List.rel_append hkept hcells
    | _ => exact hpush

theorem suspendElements_matches {f g : Function} (hfg : f.Alike p g)
    (initLocation location : Location) (path : String) {found found' : Array CellId}
    (hfound : List.Forall₂ p.cell found.toList found'.toList) (remaining : Nat) (index : Int64) :
    (suspendElements f initLocation location path found remaining index).Matches
      (fun _ q cs ds => List.Forall₂ q.cell cs.toList ds.toList)
      (suspendElements g initLocation location path found' remaining index) base p := by
  induction remaining generalizing base p found found' index with
  | zero => exact .pure hfound
  | succ remaining ih =>
    refine .bind
      (Program.newCell_matches (d := Cell.suspended (.element g _ _ _) _ _) ?_ .pending) ?_
    · exact ⟨.element hfg ⟨.number _, rfl, rfl⟩ _ _, rfl, rfl⟩
    · rintro b q c d hpq ⟨-, -, hcd⟩
      refine ih (hfg.mono hpq) ?_ _
      simp only [Array.toList_push]
      exact List.rel_append (hfound.imp fun _ _ => hpq.cell) (.cons hcd .nil)

/-- The bounds are numbers, so they are equal, and as many elements are suspended on either side. -/
theorem evaluateComprehension_givesAlike (ev : Evaluator) (first last init : Expr)
    {scope scope' : RecordId} (hscope : p.record scope scope') (path : String)
    (location : Location) :
    (ev.evaluateComprehension first last init scope path location).GivesAlike
      (ev.evaluateComprehension first last init scope' path location) base p := by
  refine .bind (Program.evaluatePart_givesAlike first hscope path _) ?_
  rintro b q v w hpq hvw
  refine .check hvw.asIndex ?_
  rintro low _ rfl
  refine .bind (Program.evaluatePart_givesAlike last (hpq.record hscope) path _) ?_
  rintro b u v w hqu hvw
  refine .check hvw.asIndex ?_
  rintro high _ rfl
  have hscope' := hqu.record (hpq.record hscope)
  refine .bind (Program.evaluatePart_givesAlike init hscope' path _) ?_
  rintro b x v w hux hvw
  refine .check hvw.asFunction fun f g hfg => ?_
  dsimp only
  rw [hfg.arity_eq]
  split
  · exact .raise trivial
  · split
    · exact .raise trivial
    · refine .bind (suspendElements_matches hfg _ _ _ .nil _ _) ?_
      rintro b y cs ds - hcs
      exact .pure ⟨.array rfl hcs, rfl, rfl⟩

theorem elementAt_givesAlike {a b : LazyArray} (hfirst : a.first = b.first)
    (hcells : List.Forall₂ p.cell a.cells.toList b.cells.toList) (index : Int64)
    (location : Location) :
    (elementAt a index location).GivesAlike (elementAt b index location) base p := by
  have hlast := LazyArray.last_eq hfirst hcells
  have hcell := LazyArray.cellAt?_rel hfirst hcells index
  unfold elementAt
  generalize a.cellAt? index = c at hcell ⊢
  generalize b.cellAt? index = d at hcell ⊢
  cases hcell with
  | some hcd => exact Program.force_givesAlike hcd
  | none =>
    dsimp only
    rw [hfirst, hlast]
    exact .raise trivial

theorem evaluateUnary_givesAlike (ev : Evaluator) (op : UnaryOp) (operand : Expr)
    {scope scope' : RecordId} (hscope : p.record scope scope') (path : String)
    (location : Location) :
    (ev.evaluateUnary op operand scope path location).GivesAlike
      (ev.evaluateUnary op operand scope' path location) base p := by
  have hmismatch {b : Nat} {q : Pairing} {v w : Value} (hvw : v.Alike q w) :
      (Program.raise (.typeMismatch "number" v.typeName location) : Program Value).GivesAlike
        (.raise (.typeMismatch "number" w.typeName location)) b q := by
    rw [hvw.typeName_eq]
    exact .raise trivial
  cases op with
  | not =>
    refine .bind (Program.evaluatePart_givesAlike operand hscope path _) ?_
    rintro b q v w hpq hvw
    refine .check hvw.asTruth ?_
    rintro x _ rfl
    exact .pure ⟨.truth _, rfl, rfl⟩
  | plus =>
    refine .bind (Program.evaluatePart_givesAlike operand hscope path _) ?_
    rintro b q v w hpq hvw
    have hmismatch := hmismatch (b := b) hvw
    obtain ⟨x, l, place⟩ := v
    obtain ⟨y, l', place'⟩ := w
    cases hvw.payload with
    | number x => exact .pure hvw
    | _ => exact hmismatch
  | neg =>
    refine .bind (Program.evaluatePart_givesAlike operand hscope path _) ?_
    rintro b q v w hpq hvw
    have hmismatch := hmismatch (b := b) hvw
    obtain ⟨x, l, place⟩ := v
    obtain ⟨y, l', place'⟩ := w
    cases hvw.payload with
    | number x => exact .pure ⟨.number _, rfl, rfl⟩
    | _ => exact hmismatch

/-- A whole tree is evaluated in a record of its own, so nothing has to correspond at first. -/
theorem wholeTree_givesAlike (ev : Evaluator) (root : Expr) :
    (ev.wholeTree root).GivesAlike (ev.wholeTree root) base p := by
  refine .bind (Program.newRecord_matches .none) ?_
  rintro b q scope scope' - ⟨-, hscope, -⟩
  exact Program.evaluate_givesAlike root hscope ev.rootPath

variable {ev : Evaluator} (hev : ev.registry.types = [])

include hev

theorem evaluateNew_givesAlike (typeName : Ident) (fields : Expr) {scope scope' : RecordId}
    (path : String) (location : Location) :
    (ev.evaluateNew typeName fields scope path location).GivesAlike
      (ev.evaluateNew typeName fields scope' path location) base p := by
  have hunknown : ev.registry.runtimeType typeName.name (typeName.location.orElse location) =
      .error ⟨.unknownType typeName.name, typeName.location.orElse location, #[]⟩ := by
    unfold Registry.runtimeType Registry.find?
    rw [hev]
    rfl
  unfold evaluateNew
  rw [hunknown]
  exact .raise trivial

/-- One expression in scopes that correspond. Its parts are evaluated in the same scopes again or
    in new ones, which are made on both sides at once. -/
theorem evaluateKind_givesAlike (kind : ExprKind) (location : Location)
    {scope scope' : RecordId} (hscope : p.record scope scope') (path : String) :
    (ev.evaluateKind kind location scope path).GivesAlike
      (ev.evaluateKind kind location scope' path) base p := by
  cases kind with
  | number x => exact .pure ⟨.number x, rfl, rfl⟩
  | text x => exact .pure ⟨.text x, rfl, rfl⟩
  | truth x => exact .pure ⟨.truth x, rfl, rfl⟩
  | new typeName fields => exact evaluateNew_givesAlike hev typeName fields path location
  | conditional condition thenBranch elseBranch =>
    refine .bind (Program.evaluatePart_givesAlike condition hscope path _) ?_
    rintro b q v w hpq hvw
    refine .check hvw.asTruth ?_
    rintro x _ rfl
    exact Program.evaluatePart_givesAlike _ (hpq.record hscope) path _
  | lambda params body =>
    refine .bind (suspendDefaults_matches hscope path .nil _) ?_
    rintro b q named named' hpq hnamed
    exact .pure ⟨.function ⟨rfl, hnamed, rfl, hpq.record hscope, rfl⟩, rfl, rfl⟩
  | apply func args => exact evaluateApply_givesAlike func args hscope path location
  | record members =>
    refine .bind (Program.newRecord_matches (.some hscope)) ?_
    rintro b q r k hpq ⟨hopen, hrk, hsole⟩
    refine .bind (addMembers_matches hrk hsole hopen path members) ?_
    rintro b u - - hqu -
    exact .pure ⟨.record (hqu.record hrk), rfl, rfl⟩
  | var name => exact Program.lookup_givesAlike hscope name location
  | member base member =>
    refine .bind (Program.evaluatePart_givesAlike base hscope path _) ?_
    rintro b q v w hpq hvw
    exact Program.memberOf_givesAlike hvw _ _
  | array items =>
    refine .bind (evaluateItems_matches hscope path 0 .nil items) ?_
    rintro b q cs ds hpq hcs
    exact .pure ⟨.array rfl hcs, rfl, rfl⟩
  | comprehension first last init =>
    exact evaluateComprehension_givesAlike ev first last init hscope path location
  | index base index =>
    refine .bind (Program.evaluatePart_givesAlike base hscope path _) ?_
    rintro b q v w hpq hvw
    refine .check hvw.asArray ?_
    rintro a a' ⟨hfirst, hcells⟩
    refine .bind (Program.evaluatePart_givesAlike index (hpq.record hscope) path _) ?_
    rintro b u v' w' hqu hvw'
    refine .check hvw'.asIndex ?_
    rintro i _ rfl
    exact elementAt_givesAlike hfirst (hcells.imp fun _ _ => hqu.cell) i index.location
  | unary op operand => exact evaluateUnary_givesAlike ev op operand hscope path location
  | binary op left right =>
    refine .bind (Program.evaluatePart_givesAlike left hscope path _) ?_
    rintro b q l l' hpq hl
    refine .bind (Program.evaluatePart_givesAlike right (hpq.record hscope) path _) ?_
    rintro b u r r' hqu hr
    exact Operator.apply_givesAlike ev.registry _ (hl.mono hqu) hr

/-- The same computation on places that correspond goes on in lockstep. Without runtime types it
    depends on the places it refers to only through what they hold. -/
theorem taskProgram_givesAlike {k l : Task} (hkl : k.Alike p l) :
    (ev.taskProgram k).GivesAlike (ev.taskProgram l) base p := by
  cases hkl with
  | evaluate e hscope path => exact evaluateKind_givesAlike hev e.kind e.location hscope path
  | element hfun hindex path location =>
    exact Function.apply_givesAlike hfun (.cons hindex .nil) .nil path location
  | constant h => exact .pure h

end Evaluator

end NetDesc
