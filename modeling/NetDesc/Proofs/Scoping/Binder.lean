import NetDesc.Expr

namespace NetDesc

inductive Binder where
  | literal (members : List Binding)
  | function (params : ParamList) (body : Expr)

namespace Binder

/-- The names that a binder declares. -/
def names : Binder → List String
  | literal members => members.map (·.name.name)
  | function params _ => params.positional.map (·.name) ++ params.named.map (·.name.name)

/-- The form of the expression that binds. -/
def kind : Binder → ExprKind
  | literal members => .record members
  | function params body => .lambda params body

end Binder

/-- The parts of an expression of this form. A part that the expression binds names in comes with
    the binder. Defaults of parameters stand outside of their function, and arguments outside of
    the function they are passed to. -/
def ExprKind.parts : ExprKind → List (Option Binder × Expr)
  | .number _ | .text _ | .truth _ | .var _ => []
  | .new _ fields => [(none, fields)]
  | .conditional condition thenBranch elseBranch =>
    [(none, condition), (none, thenBranch), (none, elseBranch)]
  | .lambda params body =>
    (some (.function params body), body) :: params.named.map fun d => (none, d.value)
  | .apply func args =>
    (none, func) :: (args.positional.map fun arg => (none, arg)) ++
      args.named.map fun arg => (none, arg.value)
  | .record members => members.map fun m => (some (.literal members), m.value)
  | .member base _ => [(none, base)]
  | .array items => items.map fun item => (none, item)
  | .comprehension first last init => [(none, first), (none, last), (none, init)]
  | .index base i => [(none, base), (none, i)]
  | .unary _ operand => [(none, operand)]
  | .binary _ left right => [(none, left), (none, right)]

theorem ExprKind.sizeOf_part {kind : ExprKind} {b : Option Binder} {part : Expr}
    (h : (b, part) ∈ kind.parts) : sizeOf part < sizeOf kind := by
  have hbinding (d : Binding) : sizeOf d.value < sizeOf d := by
    cases d
    simp only [Binding.value, Binding.mk.sizeOf_spec]
    omega
  cases kind with
  | number _ | text _ | truth _ | var _ => cases h
  | lambda params body =>
    obtain ⟨positional, named⟩ := params
    simp only [parts, List.mem_cons, List.mem_map, Prod.mk.injEq] at h
    simp only [lambda.sizeOf_spec, ParamList.mk.sizeOf_spec]
    obtain ⟨-, rfl⟩ | ⟨d, hd, -, rfl⟩ := h
    · omega
    · have := hbinding d
      have := List.sizeOf_lt_of_mem (show d ∈ named from hd)
      omega
  | apply func args =>
    obtain ⟨positional, named, location⟩ := args
    simp only [parts, List.cons_append, List.mem_cons, List.mem_append, List.mem_map,
      Prod.mk.injEq] at h
    simp only [apply.sizeOf_spec, ArgList.mk.sizeOf_spec]
    obtain ⟨-, rfl⟩ | ⟨e, he, -, rfl⟩ | ⟨a, ha, -, rfl⟩ := h
    · omega
    · have := List.sizeOf_lt_of_mem (show e ∈ positional from he)
      omega
    · have := hbinding a
      have := List.sizeOf_lt_of_mem (show a ∈ named from ha)
      omega
  | record members =>
    simp only [parts, List.mem_map, Prod.mk.injEq] at h
    obtain ⟨m, hm, -, rfl⟩ := h
    have := hbinding m
    have := List.sizeOf_lt_of_mem hm
    simp only [record.sizeOf_spec]
    omega
  | array items =>
    simp only [parts, List.mem_map, Prod.mk.injEq] at h
    obtain ⟨e, he, -, rfl⟩ := h
    have := List.sizeOf_lt_of_mem he
    simp only [array.sizeOf_spec]
    omega
  | _ =>
    simp only [parts, List.mem_cons, List.not_mem_nil, or_false, Prod.mk.injEq] at h
    grind [new.sizeOf_spec, conditional.sizeOf_spec, member.sizeOf_spec,
      comprehension.sizeOf_spec, index.sizeOf_spec, unary.sizeOf_spec, binary.sizeOf_spec]

/-- Induction over trees, from the parts of an expression to the expression. -/
theorem Expr.parts_induction {motive : Expr → Prop}
    (h : ∀ e, (∀ b part, (b, part) ∈ e.kind.parts → motive part) → motive e) (e : Expr) :
    motive e :=
  h e fun _ part hpart =>
    have : sizeOf part < sizeOf e := by
      obtain ⟨kind, location⟩ := e
      have := ExprKind.sizeOf_part hpart
      simp only [Expr.kind, Expr.mk.sizeOf_spec] at this ⊢
      omega
    parts_induction h part
termination_by sizeOf e

namespace Expr

/-- The expression stands in the tree `root` within these binders, innermost first. -/
inductive Occurs (root : Expr) : List Binder → Expr → Prop
  | root : Occurs root [] root
  | part {ctx : List Binder} {e part : Expr} {b : Option Binder} (h : Occurs root ctx e)
      (hpart : (b, part) ∈ e.kind.parts) : Occurs root (b.toList ++ ctx) part

/-- What stands in a part stands in the whole. -/
theorem Occurs.of_part {root part e : Expr} {b : Option Binder} {ctx : List Binder}
    (hpart : (b, part) ∈ root.kind.parts) (h : part.Occurs ctx e) : ∃ ctx', root.Occurs ctx' e := by
  induction h with
  | root => exact ⟨_, .part .root hpart⟩
  | part _ hinner ih =>
    obtain ⟨ctx', h⟩ := ih
    exact ⟨_, .part h hinner⟩

/-- Every identifier of the tree stands inside a record literal or in the body of a function that
    declares it. -/
def Closed (root : Expr) : Prop :=
  ∀ ctx name location, root.Occurs ctx (.mk (.var name) location) → ∃ b ∈ ctx, name ∈ b.names

end Expr

mutual

/-- Every identifier of the tree is bound in it or is one of `names`. -/
def Expr.boundIn (names : List String) : Expr → Bool
  | .mk (.number _) _ | .mk (.text _) _ | .mk (.truth _) _ => true
  | .mk (.var name) _ => names.contains name
  | .mk (.new _ fields) _ => fields.boundIn names
  | .mk (.conditional condition thenBranch elseBranch) _ =>
    condition.boundIn names && thenBranch.boundIn names && elseBranch.boundIn names
  | .mk (.lambda (.mk positional named) body) _ =>
    bindingsBoundIn names named &&
      body.boundIn (positional.map (·.name) ++ named.map (·.name.name) ++ names)
  | .mk (.apply func (.mk positional named _)) _ =>
    func.boundIn names && itemsBoundIn names positional && bindingsBoundIn names named
  | .mk (.record members) _ => bindingsBoundIn (members.map (·.name.name) ++ names) members
  | .mk (.member base _) _ => base.boundIn names
  | .mk (.array items) _ => itemsBoundIn names items
  | .mk (.comprehension first last init) _ =>
    first.boundIn names && last.boundIn names && init.boundIn names
  | .mk (.index base i) _ => base.boundIn names && i.boundIn names
  | .mk (.unary _ operand) _ => operand.boundIn names
  | .mk (.binary _ left right) _ => left.boundIn names && right.boundIn names

def itemsBoundIn (names : List String) : List Expr → Bool
  | [] => true
  | item :: rest => item.boundIn names && itemsBoundIn names rest

def bindingsBoundIn (names : List String) : List Binding → Bool
  | [] => true
  | .mk _ value :: rest => value.boundIn names && bindingsBoundIn names rest

end

theorem itemsBoundIn_iff {names : List String} {items : List Expr} :
    itemsBoundIn names items = true ↔ ∀ item ∈ items, item.boundIn names = true := by
  induction items with
  | nil => simp [itemsBoundIn]
  | cons item rest ih => simp [itemsBoundIn, ih]

theorem bindingsBoundIn_iff {names : List String} {bindings : List Binding} :
    bindingsBoundIn names bindings = true ↔ ∀ b ∈ bindings, b.value.boundIn names = true := by
  induction bindings with
  | nil => simp [bindingsBoundIn]
  | cons b rest ih =>
    cases b
    simp [bindingsBoundIn, ih, Binding.value]

namespace Expr

variable {root e part : Expr} {ctx : List Binder} {names : List String} {b : Option Binder}

/-- What is bound in a tree is bound in its parts, taking the binder into account. -/
theorem boundIn_part (h : e.boundIn names = true) (hpart : (b, part) ∈ e.kind.parts) :
    part.boundIn (b.toList.flatMap Binder.names ++ names) = true := by
  obtain ⟨kind, location⟩ := e
  change (b, part) ∈ kind.parts at hpart
  cases kind with
  | lambda params body =>
    obtain ⟨positional, named⟩ := params
    simp only [boundIn, Bool.and_eq_true, bindingsBoundIn_iff] at h
    simp only [ExprKind.parts, List.mem_cons, List.mem_map, Prod.mk.injEq] at hpart
    obtain ⟨rfl, rfl⟩ | ⟨d, hd, rfl, rfl⟩ := hpart
    · simpa [Binder.names, ParamList.positional, ParamList.named] using h.2
    · exact h.1 d hd
  | apply func args =>
    obtain ⟨positional, named, place⟩ := args
    simp only [boundIn, Bool.and_eq_true, bindingsBoundIn_iff, itemsBoundIn_iff] at h
    simp only [ExprKind.parts, List.cons_append, List.mem_cons, List.mem_append, List.mem_map,
      Prod.mk.injEq] at hpart
    obtain ⟨rfl, rfl⟩ | ⟨arg, harg, rfl, rfl⟩ | ⟨arg, harg, rfl, rfl⟩ := hpart
    · exact h.1.1
    · exact h.1.2 arg harg
    · exact h.2 arg harg
  | record members =>
    simp only [boundIn, bindingsBoundIn_iff] at h
    simp only [ExprKind.parts, List.mem_map, Prod.mk.injEq] at hpart
    obtain ⟨m, hm, rfl, rfl⟩ := hpart
    simpa [Binder.names] using h m hm
  | array items =>
    simp only [boundIn, itemsBoundIn_iff] at h
    simp only [ExprKind.parts, List.mem_map, Prod.mk.injEq] at hpart
    obtain ⟨item, hitem, rfl, rfl⟩ := hpart
    exact h item hitem
  | number x => simp [ExprKind.parts] at hpart
  | text x => simp [ExprKind.parts] at hpart
  | truth x => simp [ExprKind.parts] at hpart
  | var name => simp [ExprKind.parts] at hpart
  | _ =>
    simp only [boundIn, Bool.and_eq_true] at h
    simp only [ExprKind.parts, List.mem_cons, List.not_mem_nil, or_false, Prod.mk.injEq] at hpart
    grind

/-- In a tree whose identifiers are all bound, what stands within some binders only has identifiers
    that these declare. -/
theorem Occurs.boundIn (h : root.Occurs ctx e) (hroot : root.boundIn [] = true) :
    e.boundIn (ctx.flatMap Binder.names) = true := by
  induction h with
  | root => exact hroot
  | part _ hpart ih =>
    rw [List.flatMap_append]
    exact boundIn_part ih hpart

theorem closed_of_boundIn (hroot : root.boundIn [] = true) : root.Closed := by
  intro ctx name location h
  have hname := h.boundIn hroot
  simpa [Expr.boundIn] using hname

end Expr

end NetDesc
