import NetDesc.Expr.Build
import NetDesc.Proofs.Calls.Filling

namespace NetDesc

/-- The kind of the error, if the run ended with one. -/
def Outcome.code? {α : Type} (o : Outcome α) : Option ErrorCode :=
  o.error?.map (·.1.code)

section Lookup

variable {β : Type} {l : List (String × β)} {name : String}

theorem mem_of_lookup_eq_some {b : β} (h : l.lookup name = some b) : (name, b) ∈ l := by
  obtain ⟨before, after, rfl, -⟩ := List.lookup_eq_some_iff.1 h
  exact List.mem_append_right _ List.mem_cons_self

theorem lookup_eq_none_iff_not_mem : l.lookup name = none ↔ name ∉ l.map (·.1) := by
  rw [List.lookup_eq_none_iff, List.mem_map, not_exists]
  refine forall_congr' fun p => ?_
  rw [bne_iff_ne, not_and]
  exact imp_congr_right fun _ => ne_comm

end Lookup

namespace Function

variable {carryOut : (c : Call) → Store → Outcome c.Reply} {s t : Store}

/-- What the first two rounds put there. -/
def unnamedArguments (f : Function) (args : List Value) (named : List (String × Value)) :
    List (String × Argument) :=
  Argument.ofValues (f.params.zip args) ++
    Argument.ofDefaults (defaultsBut (f.params ++ named.map (·.1)) f.named)

/-- What the scope of a call holds, in the order in which it was put there: positional arguments,
    the defaults of what is not passed, and what is passed by name. -/
def arguments (f : Function) (args : List Value) (named : List (String × Value)) :
    List (String × Argument) :=
  f.unnamedArguments args named ++ Argument.ofValues named

/-- What a name is given in a call: a positional argument, or else one that is passed by name, or
    else the default of the function. No two members have the same name, so the order in which
    they were put into the scope does not show. -/
def argument? (f : Function) (args : List Value) (named : List (String × Value)) (name : String) :
    Option Argument :=
  ((f.params.zip args).lookup name).map .passed <|> (named.lookup name).map .passed <|>
    (f.named.lookup name).map .omitted

variable {f : Function} {args : List Value} {named : List (String × Value)} {location : Location}

theorem mem_names_unnamedArguments (hcount : args.length = f.arity) {name : String} :
    name ∈ (f.unnamedArguments args named).map (·.1) ↔
      name ∈ f.params ∨ name ∈ f.named.map (·.1) ∧ name ∉ named.map (·.1) := by
  have hpositional : (f.params.zip args).map (·.1) = f.params :=
    List.map_fst_zip (Nat.le_of_eq hcount.symm)
  have hdefaults : name ∈ (defaultsBut (f.params ++ named.map (·.1)) f.named).map (·.1) ↔
      name ∈ f.named.map (·.1) ∧ name ∉ f.params ++ named.map (·.1) := by
    constructor
    · intro h
      obtain ⟨p, hp, rfl⟩ := List.mem_map.1 h
      exact (mem_defaultsBut.1 hp).imp_left List.mem_map_of_mem
    · rintro ⟨h, hother⟩
      obtain ⟨p, hp, rfl⟩ := List.mem_map.1 h
      exact List.mem_map_of_mem (mem_defaultsBut.2 ⟨hp, hother⟩)
  rw [unnamedArguments, List.map_append, Argument.names_ofValues, Argument.names_ofDefaults,
    hpositional, List.mem_append, hdefaults, List.mem_append, not_or]
  tauto

theorem mem_names_arguments (hcount : args.length = f.arity) {name : String} :
    name ∈ (f.arguments args named).map (·.1) ↔
      name ∈ f.params ∨ name ∈ named.map (·.1) ∨ name ∈ f.named.map (·.1) := by
  rw [arguments, List.map_append, Argument.names_ofValues, List.mem_append,
    mem_names_unnamedArguments hcount]
  tauto

theorem argument?_eq_none (hcount : args.length = f.arity) {name : String} :
    f.argument? args named name = none ↔ name ∉ (f.arguments args named).map (·.1) := by
  have hpositional : (f.params.zip args).map (·.1) = f.params :=
    List.map_fst_zip (Nat.le_of_eq hcount.symm)
  rw [mem_names_arguments hcount, argument?]
  simp only [Option.orElse_eq_orElse, Option.orElse_eq_or, Option.or_eq_none_iff,
    Option.map_eq_none_iff, lookup_eq_none_iff_not_mem, hpositional, not_or]

/-- Whatever a name is given is in the scope under this name. -/
theorem mem_arguments (hcount : args.length = f.arity) {name : String} {arg : Argument}
    (h : f.argument? args named name = some arg) : (name, arg) ∈ f.arguments args named := by
  have hpositional : (f.params.zip args).map (·.1) = f.params :=
    List.map_fst_zip (Nat.le_of_eq hcount.symm)
  simp only [arguments, unnamedArguments, List.mem_append]
  cases hpos : (f.params.zip args).lookup name with
  | some v =>
    rw [argument?, hpos] at h
    cases h
    exact .inl (.inl (Argument.mem_ofValues.2 (mem_of_lookup_eq_some hpos)))
  | none =>
    cases hnamed : named.lookup name with
    | some v =>
      rw [argument?, hpos, hnamed] at h
      cases h
      exact .inr (Argument.mem_ofValues.2 (mem_of_lookup_eq_some hnamed))
    | none =>
      rw [argument?, hpos, hnamed] at h
      obtain ⟨cell, hcell, rfl⟩ := Option.map_eq_some_iff.1 h
      rw [lookup_eq_none_iff_not_mem] at hpos hnamed
      rw [hpositional] at hpos
      refine .inl (.inr (Argument.mem_ofDefaults.2 (mem_defaultsBut.2 ?_)))
      exact ⟨mem_of_lookup_eq_some hcell, by rw [List.mem_append]; exact not_or.2 ⟨hpos, hnamed⟩⟩

theorem bindArguments_mismatch (h : args.length ≠ f.arity) :
    (f.bindArguments args named location).run carryOut s =
      .error { cause := .arityMismatch f.arity args.length, location } s := by
  rw [bindArguments, if_neg h]
  rfl

section Filling

variable (carryOut : (c : Call) → Store → Outcome c.Reply) (hparams : f.params.Nodup)
  (hdeclared : (f.named.map (·.1)).Nodup) (hnamed : (named.map (·.1)).Nodup)
  (hcells : ∀ p ∈ f.named, p.2 < s.cells.size)
  (hcount : args.length = f.arity)

include hparams hdeclared hcells hcount

/-- The first two rounds leave the last one to do. -/
theorem run_bindArguments (named : List (String × Value)) (location : Location) :
    ∃ t, (f.bindArguments args named location).run carryOut s =
        (((bindNamed s.records.size location named).run carryOut t).bind fun _ u =>
          .value s.records.size u) ∧
      s.Filled t f.scope (f.unnamedArguments args named) := by
  have hpositional : (f.params.zip args).map (·.1) = f.params :=
    List.map_fst_zip (Nat.le_of_eq hcount.symm)
  have hnodup : ((f.params.zip args).map (·.1)).Nodup := hpositional.symm ▸ hparams
  obtain ⟨t, hfirst, ht⟩ := bindPositional_fills carryOut (.newRecord s f.scope) hnodup
  rw [List.nil_append] at ht
  obtain ⟨u, hsecond, hu⟩ := bindDefaults_fills carryOut ht named hdeclared hcells
  rw [Argument.names_ofValues, hpositional] at hu
  refine ⟨u, ?_, hu⟩
  rw [bindArguments, if_pos hcount]
  change Program.run carryOut (bindPositional s.records.size _ >>= fun _ =>
    bindDefaults s.records.size named f.named >>= fun _ =>
      bindNamed s.records.size location named >>= fun _ => Program.done s.records.size)
        ((Access.newRecord (some f.scope)).perform s).2 = _
  rw [Program.run_bind, hfirst, Outcome.bind, Program.run_bind, hsecond, Outcome.bind,
    Program.run_bind]
  rfl

include hnamed

/-- The scope is filled if no argument is passed twice. -/
theorem bindArguments_fills (location : Location)
    (hdisjoint : ∀ name ∈ f.params, name ∉ named.map (·.1)) :
    ∃ t, (f.bindArguments args named location).run carryOut s = .value s.records.size t ∧
      s.Filled t f.scope (f.arguments args named) := by
  obtain ⟨t, hrun, ht⟩ := run_bindArguments carryOut hparams hdeclared hcells hcount named
    location
  have hnew : ∀ name ∈ named.map (·.1), name ∉ (f.unnamedArguments args named).map (·.1) := by
    intro name hname
    rw [mem_names_unnamedArguments hcount]
    exact not_or.2 ⟨fun hparam => hdisjoint name hparam hname, fun h => h.2 hname⟩
  have hnodup := List.nodup_append.2 ⟨ht.nodup, hnamed, fun name hname other hother heq =>
    hnew other hother (heq ▸ hname)⟩
  obtain ⟨u, hlast, hu⟩ := bindNamed_fills carryOut ht location hnodup
  exact ⟨u, by rw [hrun, hlast]; rfl, hu⟩

/-- An argument that is passed twice is an error. -/
theorem bindArguments_fails (location : Location)
    (htwice : ∃ name ∈ f.params, name ∈ named.map (·.1)) :
    ∃ name ∈ f.params, name ∈ named.map (·.1) ∧ ∃ t,
      (f.bindArguments args named location).run carryOut s =
        .error (passedTwice name location) t := by
  obtain ⟨t, hrun, ht⟩ := run_bindArguments carryOut hparams hdeclared hcells hcount named
    location
  obtain ⟨twice, hparam, hpassed⟩ := htwice
  obtain ⟨name, hname, hfound, u, hlast⟩ := bindNamed_fails carryOut ht location
    hnamed ⟨twice, hpassed, (mem_names_unnamedArguments hcount).2 (.inl hparam)⟩
  have hparam := ((mem_names_unnamedArguments hcount).1 hfound).resolve_right fun h => h.2 hname
  exact ⟨name, hparam, hname, u, by rw [hrun, hlast]; rfl⟩

end Filling

/-- The record `scope` of the store `t` is the scope of a call that is made in the store `s`. -/
structure Scope (f : Function) (args : List Value) (named : List (String × Value)) (s t : Store)
    (scope : RecordId) : Prop where
  nodup : (t.record scope).names.Nodup
  mem_names : ∀ name, name ∈ (t.record scope).names ↔
    name ∈ f.params ∨ name ∈ named.map (·.1) ∨ name ∈ f.named.map (·.1)
  passed : ∀ name v, f.argument? args named name = some (.passed v) →
    ∃ m, t.find? scope name = some m ∧ t.cell m.cell = .ready v
  omitted : ∀ name default, f.argument? args named name = some (.omitted default) →
    ∃ m, t.find? scope name = some m ∧ m.cell = default
  outer : ∀ name, f.argument? args named name = none → t.find? scope name = t.find? f.scope name
  defining : ∀ name, t.find? f.scope name = s.find? f.scope name
  untouched : ∀ cell < s.cells.size, t.cell cell = s.cell cell

end Function

namespace Store.Filled

variable {s t : Store} {f : Function} {args : List Value} {named : List (String × Value)}

theorem scope (h : s.Filled t f.scope (f.arguments args named)) (hcount : args.length = f.arity)
    (hscope : f.scope < s.records.size) (hs : (s.record f.scope).Valid s) :
    f.Scope args named s t s.records.size where
  nodup := h.names ▸ h.nodup
  mem_names name := by rw [h.names, Function.mem_names_arguments hcount]
  passed name v hv := by
    obtain ⟨m, hm, -, -, hready⟩ := h.find?_of_mem (Function.mem_arguments hcount hv)
    exact ⟨m, hm, hready⟩
  omitted name default hdefault := by
    obtain ⟨m, hm, hcell, -⟩ := h.find?_of_mem (Function.mem_arguments hcount hdefault)
    exact ⟨m, hm, hcell⟩
  outer name hname := h.find?_of_not_mem hscope ((Function.argument?_eq_none hcount).1 hname)
  defining := h.find?_old hscope hs
  untouched := h.cell

end Store.Filled

namespace Function

variable {carryOut : (c : Call) → Store → Outcome c.Reply} {s t : Store} {f : Function}
  {args : List Value} {named : List (String × Value)} {scope : RecordId}

/-- An identifier in the body stands for what the call gives it, and otherwise for what it stands
    for where the function is defined. Only a default has to be computed, in its own cell. -/
theorem Scope.run_lookup (h : f.Scope args named s t scope) (ev : Evaluator) (fuel depth : Nat)
    (name : String) (location : Location) :
    (Program.lookup scope name location).run (ev.carryOut (fuel + 1) depth) t =
      match f.argument? args named name with
      | some (.passed v) => .value v t
      | some (.omitted default) => ev.carryOut (fuel + 1) depth (.force default) t
      | none => (Program.lookup f.scope name location).run (ev.carryOut (fuel + 1) depth) t := by
  cases harg : f.argument? args named name with
  | some arg =>
    cases arg with
    | passed v =>
      obtain ⟨m, hm, hready⟩ := h.passed name v harg
      have hfinished : (t.cell m.cell).progress = .finished v := by rw [hready]; rfl
      exact (Program.run_lookup location hm).trans
        (ev.carryOut_force_finished fuel depth hfinished)
    | omitted default =>
      obtain ⟨m, hm, rfl⟩ := h.omitted name default harg
      exact Program.run_lookup location hm
  | none =>
    change (Program.forceFound ((t.find? scope name).map (·.cell)) _).run _ t = _
    rw [h.outer name harg]
    rfl

theorem bindPositional_ends (carryOut : (c : Call) → Store → Outcome c.Reply) (scope : RecordId)
    (args : List (String × Value)) (s : Store) :
    ∃ t, (bindPositional scope args).run carryOut s = .value () t := by
  induction args generalizing s with
  | nil => exact ⟨s, rfl⟩
  | cons arg args ih => exact ih _

theorem bindDefaults_ends (carryOut : (c : Call) → Store → Outcome c.Reply) (scope : RecordId)
    (named : List (String × Value)) (defaults : List (String × CellId)) (s : Store) :
    ∃ t, (bindDefaults scope named defaults).run carryOut s = .value () t := by
  induction defaults generalizing s with
  | nil => exact ⟨s, rfl⟩
  | cons p defaults ih =>
    rw [run_bindDefaults_cons]
    exact ih _

/-- If as many arguments are passed as there are parameters, and none by name, then the call is an
    evaluation of the body. -/
theorem apply_positional (hcount : args.length = f.arity) (path : String) (location : Location)
    (s : Store) :
    ∃ scope t, (f.bindArguments args [] location).run carryOut s = .value scope t ∧
      (f.apply args [] path location).run carryOut s =
        (Program.evaluatePart f.body scope path s!"[{f.name}]").run carryOut t := by
  obtain ⟨t, hfirst⟩ := bindPositional_ends carryOut s.records.size
    (f.params.zip args) ((Access.newRecord (some f.scope)).perform s).2
  obtain ⟨u, hsecond⟩ := bindDefaults_ends carryOut s.records.size [] f.named t
  have hbinds : (f.bindArguments args [] location).run carryOut s = .value s.records.size u := by
    rw [bindArguments, if_pos hcount]
    change Program.run carryOut (bindPositional s.records.size _ >>= fun _ =>
      bindDefaults s.records.size [] f.named >>= fun _ => Program.done s.records.size)
        ((Access.newRecord (some f.scope)).perform s).2 = _
    rw [Program.run_bind, hfirst, Outcome.bind, Program.run_bind, hsecond]
    rfl
  refine ⟨s.records.size, u, hbinds, ?_⟩
  rw [apply, Program.run_bind, hbinds]
  rfl

/-- A call fails if the counts of arguments and parameters differ, and otherwise only if an
    argument is passed both by position and by name. If it does not fail, the scope has each
    parameter, each name that is passed and each name that is declared, once. Positional arguments
    come before those that are passed by name, these before defaults, and defaults before what is
    around the function. -/
theorem bindArguments_binds (hf : f.Valid s) (hscope : (s.record f.scope).Valid s)
    (hparams : f.params.Nodup) (hdeclared : (f.named.map (·.1)).Nodup)
    (hnamed : (named.map (·.1)).Nodup) (location : Location) :
    let o := (f.bindArguments args named location).run carryOut s
    (o.code? = some .arityMismatch ↔ args.length ≠ f.arity) ∧
      (args.length = f.arity →
        (o.code? = some .invalidArgument ↔ ∃ name ∈ f.params, name ∈ named.map (·.1))) ∧
      (args.length = f.arity → (∀ name ∈ f.params, name ∉ named.map (·.1)) →
        ∃ t, o = .value s.records.size t ∧ f.Scope args named s t s.records.size ∧
          ∀ (ev : Evaluator) (fuel depth : Nat) (name : String) (location : Location),
            (Program.lookup s.records.size name location).run (ev.carryOut (fuel + 1) depth) t =
              match f.argument? args named name with
              | some (.passed v) => .value v t
              | some (.omitted default) => ev.carryOut (fuel + 1) depth (.force default) t
              | none => (Program.lookup f.scope name location).run
                (ev.carryOut (fuel + 1) depth) t) := by
  intro o
  have hmismatch (h : args.length ≠ f.arity) : o.code? = some .arityMismatch := by
    rw [show o = _ from bindArguments_mismatch h]
    rfl
  have hfails (hcount : args.length = f.arity)
      (htwice : ∃ name ∈ f.params, name ∈ named.map (·.1)) : o.code? = some .invalidArgument := by
    obtain ⟨name, -, -, t, hrun⟩ := bindArguments_fails carryOut hparams hdeclared hnamed hf.named
      hcount location htwice
    rw [show o = _ from hrun]
    rfl
  have hfills (hcount : args.length = f.arity)
      (hdisjoint : ∀ name ∈ f.params, name ∉ named.map (·.1)) :
      ∃ t, o = .value s.records.size t ∧ f.Scope args named s t s.records.size := by
    obtain ⟨t, hrun, ht⟩ := bindArguments_fills carryOut hparams hdeclared hnamed hf.named hcount
      location hdisjoint
    exact ⟨t, hrun, ht.scope hcount hf.scope hscope⟩
  have hexcluded (hcount : args.length = f.arity)
      (hdisjoint : ¬∃ name ∈ f.params, name ∈ named.map (·.1)) : o.code? = none := by
    obtain ⟨t, ho, -⟩ := hfills hcount fun name hparam hpassed =>
      hdisjoint ⟨name, hparam, hpassed⟩
    rw [ho]
    rfl
  refine ⟨⟨fun hcode hcount => ?_, hmismatch⟩, fun hcount => ⟨fun hcode => ?_, hfails hcount⟩,
    fun hcount hdisjoint => ?_⟩
  · by_cases htwice : ∃ name ∈ f.params, name ∈ named.map (·.1)
    · rw [hfails hcount htwice] at hcode
      cases hcode
    · rw [hexcluded hcount htwice] at hcode
      cases hcode
  · by_contra htwice
    rw [hexcluded hcount htwice] at hcode
    cases hcode
  · obtain ⟨t, ho, hscope⟩ := hfills hcount hdisjoint
    exact ⟨t, ho, hscope, hscope.run_lookup⟩

/-- A function of one parameter that declares two names, one of which is that of the parameter. -/
def shiftFunction : Function where
  params := ["x"]
  named := [("x", 0), ("by", 1)]
  body := .ofKind (.binary .add (.ofName "x") (.ofName "by"))
  scope := 0
  name := "Shift"

/-- The record the function is defined in, and its defaults, which have not been computed. -/
def shiftStore : Store where
  cells := #[.suspended (.evaluate (.ofText "a") 0 "$.x") .unknown "$.x",
    .suspended (.evaluate (.ofText "b") 0 "$.by") .unknown "$.by"]
  records := #[{}]

/-- The parameter has the value that is passed, the other name has its default. A name that is not
    declared may be passed, too, but not that of the parameter. -/
theorem bindArguments_binds_shift :
    let v := Value.text "v" .unknown ""
    let w := Value.text "w" .unknown ""
    let o (named : List (String × Value)) : Outcome RecordId :=
      (shiftFunction.bindArguments [v] named .unknown).run (({} : Evaluator).carryOut 1 0)
        shiftStore
    (o [("x", w)]).code? = some .invalidArgument ∧
      ∃ t, o [("to", w)] = .value 1 t ∧ shiftFunction.Scope [v] [("to", w)] shiftStore t 1 ∧
        (Program.lookup 1 "x" .unknown).run (({} : Evaluator).carryOut 1 0) t = .value v t ∧
        (Program.lookup 1 "to" .unknown).run (({} : Evaluator).carryOut 1 0) t = .value w t ∧
        (Program.lookup 1 "by" .unknown).run (({} : Evaluator).carryOut 1 0) t =
          (({} : Evaluator).carryOut 1 0 (.force 1) t : Outcome Value) ∧
        (t.cell 1).progress = .pending := by
  intro v w o
  have hvalid : shiftFunction.Valid shiftStore := ⟨by decide, by decide⟩
  have hrecord : (shiftStore.record shiftFunction.scope).Valid shiftStore :=
    ⟨by decide, by decide⟩
  have hbinds (named : List (String × Value)) (hnamed : (named.map (·.1)).Nodup) :=
    @bindArguments_binds (({} : Evaluator).carryOut 1 0) shiftStore shiftFunction [v] named hvalid
      hrecord (by decide) (by decide) hnamed .unknown
  obtain ⟨t, ht, hscope, hlookup⟩ := (hbinds [("to", w)] (by decide)).2.2 rfl (by decide)
  refine ⟨((hbinds [("x", w)] (by decide)).2.1 rfl).2 ⟨"x", by decide, by decide⟩, t, ht, hscope,
    hlookup {} 0 0 "x" .unknown, hlookup {} 0 0 "to" .unknown, hlookup {} 0 0 "by" .unknown, ?_⟩
  rw [hscope.untouched 1 (by decide)]
  rfl

end Function

end NetDesc
