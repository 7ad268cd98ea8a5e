import NetDesc.Proofs.Arity.Causes
import NetDesc.Proofs.Naming.Region
import NetDesc.Proofs.Scoping.Binder

namespace NetDesc

/-- Different numbers are written differently. -/
theorem repr_injective {m n : Nat} (h : m.repr = n.repr) : m = n := by
  rw [Nat.repr_eq_ofList_toDigits, Nat.repr_eq_ofList_toDigits] at h
  have hdigits := congrArg (Nat.ofDigitChars 10 · 0) (String.ofList_injective h)
  simpa using hdigits

theorem Index.toString_injective {i j : Int64} (h : toString i = toString j) : i = j := by
  have hsign (m n : Nat) : "-" ++ m.repr ≠ n.repr := by
    intro heq
    have hmem : '-' ∈ n.repr.toList := by simp [← heq]
    rw [Nat.repr_eq_ofList_toDigits, String.toList_ofList] at hmem
    exact absurd (Nat.isDigit_of_mem_toDigits (by decide) (by decide) hmem) (by decide)
  change i.toInt.repr = j.toInt.repr at h
  rw [Int.repr_eq_if, Int.repr_eq_if] at h
  refine Int64.toInt_inj.1 ?_
  split at h <;> split at h
  · have := repr_injective h
    omega
  · exact (hsign _ _ h.symm).elim
  · exact (hsign _ _ h).elim
  · have := repr_injective ((String.append_right_inj _).1 h)
    omega

/-- A name that consists of letters, digits and underscores and does not look like the name of a
    part of an expression. Such names are mixed up neither with each other nor with what the
    parts of other expressions are called. -/
structure IsIdentifier (name : String) : Prop where
  ne_empty : name ≠ ""
  chars : ∀ c ∈ name.toList, c.isAlphanum ∨ c = '_'
  first : name.toList.head? ≠ some '_'
  ne_if : name ≠ "if"

theorem isIdentifier_iff {name : String} : IsIdentifier name ↔
    name ≠ "" ∧ name.toList.all (fun c => c.isAlphanum || c == '_') = true ∧
      name.toList.head? ≠ some '_' ∧ name ≠ "if" := by
  simp only [List.all_eq_true, Bool.or_eq_true, beq_iff_eq]
  exact ⟨fun h => ⟨h.ne_empty, h.chars, h.first, h.ne_if⟩,
    fun ⟨hne, hchars, hfirst, hif⟩ => ⟨hne, hchars, hfirst, hif⟩⟩

instance (name : String) : Decidable (IsIdentifier name) :=
  decidable_of_iff _ isIdentifier_iff.symm

/-- The names that an expression of this form declares or passes arguments under are identifiers. -/
def ExprKind.WellNamed : ExprKind → Prop
  | .lambda params _ =>
    (∀ p ∈ params.positional, IsIdentifier p.name) ∧ ∀ d ∈ params.named, IsIdentifier d.name.name
  | .apply _ args => ∀ a ∈ args.named, IsIdentifier a.name.name
  | .record members => ∀ m ∈ members, IsIdentifier m.name.name
  | _ => True

/-- The expression makes a network. -/
def ExprKind.startsNetwork : ExprKind → Bool
  | .new typeName _ =>
    typeName.name == "ComputationNetwork" || typeName.name == "NDLComputationNetwork"
  | _ => false

/-- The conditional that is decided at the path of the expression: the expression itself, or the one
    in the part of it that is evaluated at the same path. The fields of a network are not. -/
def Expr.decider : Expr → Option Expr
  | .mk (.conditional condition thenBranch elseBranch) location =>
    some (.mk (.conditional condition thenBranch elseBranch) location)
  | .mk (.member base _) _ => base.decider
  | .mk (.unary .plus operand) _ => operand.decider
  | .mk (.new typeName fields) _ =>
    if (ExprKind.new typeName fields).startsNetwork then none else fields.decider
  | _ => none
termination_by structural e => e

/-- What may be evaluated in the place of an expression of this form. -/
def ExprKind.branches : ExprKind → List Expr
  | .conditional _ thenBranch elseBranch => [thenBranch, elseBranch]
  | _ => []

namespace Expr

/-- All expressions in the tree are of such forms. -/
def Everywhere (P : ExprKind → Prop) (root : Expr) : Prop :=
  ∀ ctx e, root.Occurs ctx e → P e.kind

theorem Everywhere.kind {P : ExprKind → Prop} {e : Expr} (h : e.Everywhere P) : P e.kind :=
  h [] e .root

theorem Everywhere.part {P : ExprKind → Prop} {e part : Expr} {b : Option Binder}
    (h : e.Everywhere P) (hpart : (b, part) ∈ e.kind.parts) : part.Everywhere P := by
  intro ctx e' he'
  obtain ⟨ctx', hoccurs⟩ := Occurs.of_part hpart he'
  exact h ctx' e' hoccurs

/-- What holds everywhere in a tree holds of the expression at its root and everywhere in its
    parts. -/
theorem everywhere_mk {P : ExprKind → Prop} {kind : ExprKind} {location : Location} :
    (mk kind location).Everywhere P ↔ P kind ∧ ∀ p ∈ kind.parts, p.2.Everywhere P := by
  refine ⟨fun h => ⟨h.kind, fun p hp => h.part hp⟩, fun ⟨hkind, hparts⟩ => ?_⟩
  have hinside {ctx : List Binder} {e : Expr} (he : (mk kind location).Occurs ctx e) :
      e = mk kind location ∨ ∃ p ∈ kind.parts, ∃ ctx', p.2.Occurs ctx' e := by
    induction he with
    | root => exact .inl rfl
    | @part _ _ inner b _ hinner ih =>
      right
      obtain rfl | ⟨p, hp, ctx', he⟩ := ih
      · exact ⟨(b, inner), hinner, [], .root⟩
      · exact ⟨p, hp, _, .part he hinner⟩
  intro ctx e he
  obtain rfl | ⟨p, hp, ctx', he⟩ := hinside he
  · exact hkind
  · exact hparts p hp ctx' e he

/-- Members, parameters and arguments of the tree are named with identifiers. -/
def WellNamed (root : Expr) : Prop :=
  root.Everywhere ExprKind.WellNamed

end Expr

namespace IsIdentifier

variable {name other : String} (h : IsIdentifier name)

include h

theorem solid : Solid name := by
  intro c hc
  rcases h.chars c hc with hc | rfl
  · constructor <;> rintro rfl <;> exact absurd hc (by decide)
  · decide

/-- An identifier begins with a letter or a digit. -/
theorem head {c : Char} (hc : c.isAlphanum = false) : name.toList.head? ≠ some c := by
  intro hhead
  rcases h.chars c (List.mem_of_head? hhead) with halnum | rfl
  · simp [hc] at halnum
  · exact h.first hhead

theorem partId : PartId name :=
  .of_solid h.ne_empty (h.head (by decide)) h.solid h.ne_if

theorem apart (hother : IsIdentifier other) (hne : name ≠ other) : IdsApart name other :=
  h.solid.apart hother.solid hne

/-- What is called otherwise begins otherwise. -/
theorem apart_of_head {id : String} {c : Char} (hid : id.toList.head? = some c)
    (hc : c.isAlphanum = false) : IdsApart name id :=
  .of_head h.ne_empty (by rintro rfl; simp at hid) (hid ▸ h.head hc)

/-- The id of a positional argument. -/
theorem solid_argument : Solid s!"({name})" := by
  have := h.solid
  simpa [Solid, toString, or_imp, forall_and] using this

theorem partId_argument : PartId s!"({name})" :=
  .of_solid (by simp [toString]) (by simp [toString]) h.solid_argument (by
    intro heq
    have := congrArg (·.toList.head?) heq
    simp [toString] at this)

theorem argument_apart (hother : IsIdentifier other) (hne : name ≠ other) :
    IdsApart s!"({name})" s!"({other})" := by
  refine h.solid_argument.apart hother.solid_argument fun heq => hne ?_
  have hinner := congrArg String.toList heq
  exact String.toList_injective (by simpa [toString] using hinner)

theorem apart_argument (other : String) : IdsApart name s!"({other})" :=
  h.apart_of_head (c := '(') (by simp [toString]) (by decide)

end IsIdentifier

theorem partId_body (name : String) : PartId s!"[{name}]" :=
  .of_bracket (by simp [toString])

/-- The id of a body begins with a bracket, which is how it is told from what else a call has. -/
theorem body_apart {id : String} (name : String) (hid : PartId id)
    (hhead : id.toList.head? ≠ some '[') : IdsApart s!"[{name}]" id :=
  .of_head (partId_body name).ne_empty hid.ne_empty (by
    simpa [toString] using Ne.symm hhead)

theorem partId_left (op : BinaryOp) : PartId s!"[{op.symbol}](left)" :=
  .of_bracket (by simp [toString])

theorem partId_right (op : BinaryOp) : PartId s!"[{op.symbol}](right)" :=
  .of_bracket (by simp [toString])

theorem operands_apart (op : BinaryOp) :
    IdsApart s!"[{op.symbol}](left)" s!"[{op.symbol}](right)" := by
  have h : IdsApart "](left)" "](right)" := (IdsApart.of_head (a := "left)") (b := "right)")
    (by decide) (by decide) (by decide)).append "]("
  exact h.append ("[" ++ op.symbol)

/-- What parts are called that an expression has once. -/
def fixedIds : List String :=
  ["_lambda", "array_first", "array_last", "_initializer", "_vector", "_index", "_not", "_negate"]

theorem solid_fixed {id : String} (h : id ∈ fixedIds) : Solid id := by
  have hall : ∀ id ∈ fixedIds, Solid id := by decide
  exact hall id h

theorem partId_fixed {id : String} (h : id ∈ fixedIds) : PartId id := by
  have hall : ∀ id ∈ fixedIds, id ≠ "" ∧ id.toList.head? ≠ some '$' ∧ id ≠ "if" := by decide
  obtain ⟨hne, hbelow, hif⟩ := hall id h
  exact .of_solid hne hbelow (solid_fixed h) hif

theorem fixed_apart {a b : String} (ha : a ∈ fixedIds) (hb : b ∈ fixedIds) (h : a ≠ b) :
    IdsApart a b :=
  (solid_fixed ha).apart (solid_fixed hb) h

theorem solid_item (n : Nat) : Solid s!"_vecelem{n}" := by
  have hdigits : ∀ c ∈ n.repr.toList, c ≠ '.' ∧ c ≠ '[' := by
    intro c hc
    rw [Nat.repr_eq_ofList_toDigits, String.toList_ofList] at hc
    have := Nat.isDigit_of_mem_toDigits (by decide) (by decide) hc
    constructor <;> rintro rfl <;> exact absurd this (by decide)
  have hstart : Solid "_vecelem" := by decide
  intro c hc
  simp only [toString, String.toList_append, List.mem_append] at hc
  exact hc.elim (hstart c) (hdigits c)

theorem partId_item (n : Nat) : PartId s!"_vecelem{n}" :=
  .of_solid (by simp [toString]) (by simp [toString]) (solid_item n) (by
    intro heq
    have := congrArg (·.toList.head?) heq
    simp [toString] at this)

theorem items_apart {m n : Nat} (h : m ≠ n) : IdsApart s!"_vecelem{m}" s!"_vecelem{n}" := by
  refine (solid_item m).apart (solid_item n) fun heq => h ?_
  exact repr_injective ((String.append_right_inj _).1 heq)

section Elements

variable {path : String} (hpath : path ≠ "")

include hpath

theorem toList_elementPath (i : Int64) : (Evaluator.elementPath path i).toList =
    path.toList ++ '[' :: ((toString i).toList ++ [']']) := by
  simp [Evaluator.elementPath, hpath, toString]

theorem elementPath_ne_empty (i : Int64) : Evaluator.elementPath path i ≠ "" := by
  intro h
  have := toList_elementPath hpath i
  simp [h] at this

theorem mem_region_elementPath {i : Int64} {name : String} :
    name ∈ region (Evaluator.elementPath path i) ↔ ∃ rest, Continuation rest ∧
      name.toList = path.toList ++ '[' :: ((toString i).toList ++ ']' :: rest) := by
  rw [mem_region (elementPath_ne_empty hpath i), toList_elementPath hpath]
  simp

theorem region_elementPath_subset (i : Int64) :
    region (Evaluator.elementPath path i) ⊆ region path := by
  intro name hname
  obtain ⟨rest, -, heq⟩ := (mem_region_elementPath hpath).1 hname
  exact (mem_region hpath).2 ⟨_ :: _, Or.inr rfl, heq⟩

theorem region_elementPath_disjoint {i j : Int64} (h : i ≠ j) :
    Disjoint (region (Evaluator.elementPath path i)) (region (Evaluator.elementPath path j)) := by
  rw [Set.disjoint_left]
  intro name hname hname'
  obtain ⟨s, -, hs⟩ := (mem_region_elementPath hpath).1 hname
  obtain ⟨t, -, ht⟩ := (mem_region_elementPath hpath).1 hname'
  rw [hs] at ht
  have htail := (List.cons.inj (List.append_cancel_left ht)).2
  have hindex (k : Int64) (rest : List Char) :
      ((toString k).toList ++ ']' :: rest).takeWhile (· ≠ ']') = (toString k).toList := by
    rw [List.takeWhile_append_of_pos, List.takeWhile_cons_of_neg (by simp), List.append_nil]
    intro c hc
    rcases Index.toString_chars k c hc with hc | rfl
    · simp only [ne_eq, decide_eq_true_eq]
      rintro rfl
      exact absurd hc (by decide)
    · decide
  have hsame := congrArg (List.takeWhile (· ≠ ']')) htail
  rw [hindex, hindex] at hsame
  exact h (Index.toString_injective (String.toList_injective hsame))

/-- An element is no part of the expression that is called by an id. -/
theorem region_elementPath_disjoint_joinPath (i : Int64) {id : String} (hid : id ≠ "") :
    Disjoint (region (Evaluator.elementPath path i)) (region (joinPath path id)) := by
  rw [Set.disjoint_left]
  intro name hname hname'
  obtain ⟨s, -, hs⟩ := (mem_region_elementPath hpath).1 hname
  obtain ⟨t, -, ht⟩ := (mem_region (joinPath_ne_empty hid)).1 hname'
  rw [hs, toList_joinPath hpath hid, List.append_assoc] at ht
  have hhead := (List.cons.inj (List.append_cancel_left ht)).1
  exact absurd hhead (by decide)

theorem region_elementPath_within (i : Int64) :
    region (Evaluator.elementPath path i) ⊆ within path := by
  intro name hname
  refine ⟨region_elementPath_subset hpath i hname, ?_⟩
  rintro rfl
  obtain ⟨rest, -, heq⟩ := (mem_region_elementPath hpath).1 hname
  have hlength := congrArg List.length heq
  simp only [List.length_append, List.length_cons] at hlength
  omega

end Elements

end NetDesc
