import NetDesc.Proofs.Operators.Nodes

namespace NetDesc

namespace OperatorTable

/-- The table after operators have been given the entries of others, one after another. Only with
    such a table may what handles a pair find out that it does not know the operator. -/
def copyAll (t : OperatorTable) : List (BinaryOp × BinaryOp) → OperatorTable
  | [] => t
  | (source, target) :: rest => (t.copy source target).copyAll rest

/-- No operator but multiplication accepts an object and a number. -/
def OnlyScales (t : OperatorTable) : Prop :=
  ∀ op, op ≠ .mul → .objectNumber ∉ t.accepted op

theorem standard_onlyScales : standard.OnlyScales := by
  intro op hop
  cases op <;> first | decide | exact absurd rfl hop

theorem OnlyScales.copy {t : OperatorTable} (ht : t.OnlyScales) {source : BinaryOp}
    (hsource : source ≠ .mul) (target : BinaryOp) : (t.copy source target).OnlyScales := by
  intro op hop
  by_cases htarget : op = target
  · simpa only [OperatorTable.copy, htarget, if_true] using ht source hsource
  · simpa only [OperatorTable.copy, htarget, if_false] using ht op hop

theorem OnlyScales.copyAll {t : OperatorTable} (ht : t.OnlyScales)
    {copies : List (BinaryOp × BinaryOp)} (hcopies : ∀ c ∈ copies, c.1 ≠ .mul) :
    (t.copyAll copies).OnlyScales := by
  induction copies generalizing t with
  | nil => exact ht
  | cons c copies ih =>
    rw [List.forall_mem_cons] at hcopies
    exact ih (ht.copy hcopies.1 c.2) hcopies.2

end OperatorTable

namespace Operator

variable (r : Registry) (site : Site) (left right : Value)

/-- An object and a number for an operator that accepts them and does not scale. -/
def Exchanges : Prop :=
  OperandPair.of? left right = some .objectNumber ∧
    .objectNumber ∈ r.operators.accepted site.op ∧ site.op ≠ .mul

/-- The operands are the inputs of a node, in one order or the other. -/
def Constructs (p : Program Value) : Prop :=
  ∃ className first second, p = (do
    let fields ← graphFields site className first second
    r.construct r.graphNodeType fields site.location site.path)

theorem orInvalid_cases (result : Option Value) :
    (∃ v, orInvalid site left right result = .done v) ∨
      orInvalid site left right result = .raise (site.invalidOperands left right) := by
  cases result with
  | some v => exact .inl ⟨v, rfl⟩
  | none => exact .inr rfl

variable {left right}

/-- What handles numbers, strings or truth values finds the operands to be what it expects. -/
theorem handle_scalars {pair : OperandPair} (hpair : pair ∈ [.numbers, .texts, .truths])
    (h : OperandPair.of? left right = some pair) :
    (∃ v, handle r site left right pair = .done v) ∨
      handle r site left right pair = .raise (site.invalidOperands left right) := by
  obtain ⟨x, l, path⟩ := left
  obtain ⟨y, k, via⟩ := right
  cases x <;> cases y <;> cases h
  case number.number.refl => exact orInvalid_cases site _ _ _
  case text.text.refl => exact orInvalid_cases site _ _ _
  case truth.truth.refl => exact orInvalid_cases site _ _ _
  all_goals simp at hpair

theorem isNumber_right_of_object {pair : OperandPair} (h : OperandPair.of? left right = some pair)
    (hpair : pair ∈ [.objects, .numberObject]) : isNumber right = false := by
  obtain ⟨x, l, path⟩ := left
  obtain ⟨y, k, via⟩ := right
  cases x <;> cases y <;> cases h
  case object.object.refl => rfl
  case number.object.refl => rfl
  all_goals simp at hpair

theorem onObjects_cases (hright : isNumber right = false) :
    Constructs r site (onObjects r site left right) ∨
      onObjects r site left right = .raise (site.invalidOperands left right) := by
  simp only [onObjects, hright, Bool.false_eq_true, if_false]
  split
  · exact .inl ⟨_, _, _, rfl⟩
  · exact .inr rfl

/-- Only multiplication scales. -/
theorem onObjects_exchanged (h : OperandPair.of? left right = some .objectNumber) :
    if site.op = .mul then Constructs r site (onObjects r site left right)
    else onObjects r site left right = .raise (site.invalidOperands right left) := by
  obtain ⟨op, location, path⟩ := site
  obtain ⟨x, l, path⟩ := left
  obtain ⟨y, k, via⟩ := right
  cases x <;> cases y <;> cases h
  cases op <;> first | exact rfl | exact ⟨_, _, _, rfl⟩

theorem apply_of_exchanges (h : Exchanges r site left right) :
    apply r site left right = .raise (site.invalidOperands right left) := by
  obtain ⟨hpair, haccepted, hop⟩ := h
  have hexchanged := onObjects_exchanged r site hpair
  rw [if_neg hop] at hexchanged
  simp only [apply, hpair, haccepted, if_true, handle, hexchanged]

theorem apply_cases (h : ¬ Exchanges r site left right) :
    (∃ v, apply r site left right = .done v) ∨ Constructs r site (apply r site left right) ∨
      apply r site left right = .raise (site.invalidOperands left right) := by
  unfold apply
  split
  · next pair hpair =>
    split
    · next haccepted =>
      cases pair with
      | numbers => exact (handle_scalars r site (by simp) hpair).imp_right .inr
      | texts => exact (handle_scalars r site (by simp) hpair).imp_right .inr
      | truths => exact (handle_scalars r site (by simp) hpair).imp_right .inr
      | objects => exact .inr (onObjects_cases r site (isNumber_right_of_object hpair (by simp)))
      | numberObject =>
        exact .inr (onObjects_cases r site (isNumber_right_of_object hpair (by simp)))
      | objectNumber =>
        have hop : site.op = .mul := by
          by_contra hop
          exact h ⟨hpair, haccepted, hop⟩
        have hexchanged := onObjects_exchanged r site hpair
        rw [if_pos hop] at hexchanged
        exact .inr (.inl hexchanged)
    · exact .inr (.inr rfl)
  · exact .inr (.inr rfl)

theorem Constructs.run_error {p : Program Value} (hp : Constructs r site p)
    {carryOut : (c : Call) → Store → Outcome c.Reply} {s t : Store} {e : EvalError}
    (h : p.run carryOut s = .error e t) :
    ∃ fields u, (r.construct r.graphNodeType fields site.location site.path).run carryOut u =
      .error e t := by
  obtain ⟨className, first, second, rfl⟩ := hp
  rw [Program.run_bind, run_graphFields] at h
  exact ⟨_, _, h⟩

/-- An error that an operator raises itself. What fails apart from that is the instantiation of a
    type. -/
def Refuses (left right : Value) (e : EvalError) : Prop :=
  apply r site left right = .raise e

variable (left right)

/-- When an operator fails, either the type of nodes fails that it instantiates, or it refuses its
    operands. It does so before anything is computed, with an error that tells where it is applied,
    which operator it is and of which types the operands are as they are written, unless they are an
    object and a number that have been exchanged. That happens only with a table in which another
    operator has the entries of multiplication. What handles numbers, strings and truth values gives
    a value or refuses them in the same way. -/
theorem refuses_as_written :
    (∀ (carryOut : (c : Call) → Store → Outcome c.Reply) (s t : Store) (e : EvalError),
      (apply r site left right).run carryOut s = .error e t →
        (Refuses r site left right e ∧ t = s) ∨
        ∃ fields u, (r.construct r.graphNodeType fields site.location site.path).run carryOut u =
          .error e t) ∧
    (∀ e, Refuses r site left right e → e.location = site.location ∧ e.trail = #[] ∧
      (¬ Exchanges r site left right →
        e.cause = .invalidOperandTypes site.op.symbol left.typeName right.typeName) ∧
      (Exchanges r site left right →
        e.cause = .invalidOperandTypes site.op.symbol right.typeName left.typeName)) ∧
    (∀ copies : List (BinaryOp × BinaryOp), r.operators = OperatorTable.standard.copyAll copies →
      (∀ c ∈ copies, c.1 ≠ .mul) → ¬ Exchanges r site left right) ∧
    (∀ pair ∈ [OperandPair.numbers, .texts, .truths], OperandPair.of? left right = some pair →
      (∃ v, handle r site left right pair = .done v) ∨
        handle r site left right pair = .raise (site.invalidOperands left right)) := by
  refine ⟨fun carryOut s t e h => ?_, fun e he => ?_, fun copies hr hcopies hexchanges => ?_,
    fun pair hpair h => handle_scalars r site hpair h⟩
  · by_cases hexchanges : Exchanges r site left right
    · have hraise := apply_of_exchanges r site hexchanges
      rw [hraise] at h
      cases h
      exact .inl ⟨hraise, rfl⟩
    · obtain ⟨v, hdone⟩ | hconstructs | hraise := apply_cases r site hexchanges
      · rw [hdone] at h
        cases h
      · exact .inr (hconstructs.run_error r site h)
      · rw [hraise] at h
        cases h
        exact .inl ⟨hraise, rfl⟩
  · unfold Refuses at he
    by_cases hexchanges : Exchanges r site left right
    · rw [apply_of_exchanges r site hexchanges] at he
      cases he
      exact ⟨rfl, rfl, fun hnot => absurd hexchanges hnot, fun _ => rfl⟩
    · obtain ⟨v, hdone⟩ | ⟨className, first, second, hconstructs⟩ | hraise :=
        apply_cases r site hexchanges
      · rw [hdone] at he
        cases he
      · rw [hconstructs] at he
        cases he
      · rw [hraise] at he
        cases he
        exact ⟨rfl, rfl, fun _ => rfl, fun h => absurd h hexchanges⟩
  · obtain ⟨-, haccepted, hop⟩ := hexchanges
    rw [hr] at haccepted
    exact OperatorTable.standard_onlyScales.copyAll hcopies site.op hop haccepted

/-- Where subtraction has the entries of addition, it refuses two strings after it has accepted
    them. -/
theorem refuses_as_written_strings :
    ∃ e, Refuses { Registry.standard with operators := .copyAll .standard [(.add, .sub)] }
        ⟨.sub, .unknown, "$.y"⟩ (.text "ab" .unknown "") (.text "b" .unknown "") e ∧
      e.cause = .invalidOperandTypes "-" "string" "string" := by
  obtain ⟨-, hrefuses, hcopies, hscalars⟩ := refuses_as_written
    { Registry.standard with operators := .copyAll .standard [(.add, .sub)] }
    ⟨.sub, .unknown, "$.y"⟩ (.text "ab" .unknown "") (.text "b" .unknown "")
  have hnot := hcopies [(.add, .sub)] rfl (by decide)
  obtain ⟨v, hdone⟩ | hraise := hscalars .texts (by decide) rfl
  · cases hdone
  · exact ⟨_, hraise, (hrefuses _ hraise).2.2.1 hnot⟩

/-- Where addition has the entries of multiplication, a node plus a number is refused as a number
    plus a node. -/
theorem refused_exchanged :
    ∃ e, Refuses { Registry.standard with operators := .copyAll .standard [(.mul, .add)] }
        ⟨.add, .unknown, "$.y"⟩ (.object (.node 0) .unknown "$.x") (.number 2 .unknown "") e ∧
      e.cause = .invalidOperandTypes "+" "number" "ComputationNode" ∧
      e.cause ≠ .invalidOperandTypes "+" "ComputationNode" "number" :=
  ⟨_, rfl, rfl, by decide⟩

end Operator

end NetDesc
