import NetDesc.Operator

namespace NetDesc

namespace Operator

variable (r : Registry) (site : Site) (left right : Value)

/-- What is done with operands of a pair that the operator accepts, told from the operands
    alone. -/
def applyTo : Program Value :=
  match left.payload, right.payload with
  | .number x, .number y => orInvalid site left right (onNumbers? site x y)
  | .text s, .text t => orInvalid site left right (onTexts? site s t)
  | .truth a, .truth b => orInvalid site left right (onTruths? site a b)
  | _, _ => onObjects r site left right

variable {left right}

/-- Operands are looked at twice: once for the pair that they form, and once more by what handles
    this pair, which finds them to be what it expects. -/
theorem handle_eq_applyTo {pair : OperandPair} (h : OperandPair.of? left right = some pair) :
    handle r site left right pair = applyTo r site left right := by
  obtain ⟨x, l, path⟩ := left
  obtain ⟨y, k, via⟩ := right
  cases x <;> cases y <;> cases h <;> rfl

variable (left right)

theorem apply_eq :
    apply r site left right =
      match OperandPair.of? left right with
      | some pair =>
        if pair ∈ r.operators.accepted site.op then applyTo r site left right
        else .raise (site.invalidOperands left right)
      | none => .raise (site.invalidOperands left right) := by
  unfold apply
  cases h : OperandPair.of? left right with
  | none => rfl
  | some pair => simp only [handle_eq_applyTo r site h]

section Cases

variable {r site left right} {P : Program Value → Prop}

/-- An operator on objects makes a node, or there is none that it makes. The operands may have
    changed places by then, so only what holds of both of them is known of each. -/
theorem onObjects_elim
    (hnode : ∀ (className : String) (first second : Value),
      (∀ Q : Value → Prop, Q left → Q right → Q first ∧ Q second) → P (do
        let fields ← graphFields site className first second
        r.construct r.graphNodeType fields site.location site.path))
    (hraise : ∀ first second, P (.raise (site.invalidOperands first second))) :
    P (onObjects r site left right) := by
  unfold onObjects
  dsimp only
  split
  · refine hnode _ _ _ fun Q hleft hright => ?_
    split
    · exact ⟨hright, hleft⟩
    · exact ⟨hleft, hright⟩
  · exact hraise _ _

/-- Each pair of operands is handled in one way, or the operator does not accept it. -/
theorem apply_elim (hnumbers : ∀ x y, P (orInvalid site left right (onNumbers? site x y)))
    (htexts : ∀ s t, P (orInvalid site left right (onTexts? site s t)))
    (htruths : ∀ a b, P (orInvalid site left right (onTruths? site a b)))
    (hobjects : P (onObjects r site left right))
    (hraise : P (.raise (site.invalidOperands left right))) : P (apply r site left right) := by
  have hto : P (applyTo r site left right) := by
    unfold applyTo
    split
    · exact hnumbers _ _
    · exact htexts _ _
    · exact htruths _ _
    · exact hobjects
  rw [apply_eq]
  split
  · split
    · exact hto
    · exact hraise
  · exact hraise

end Cases

end Operator

end NetDesc
