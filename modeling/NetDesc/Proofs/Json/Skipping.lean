import NetDesc.Json.Skip
import NetDesc.Proofs.Json.Spelling

namespace NetDesc

namespace Json

open Token (joined Separated)

/-- The tokens of a value, whatever it is: nested to any depth, and with numbers and strings that
    could not be used. Fields that are not known may have any. -/
inductive IsValue : List Token → Prop
  | null : IsValue [.null]
  | truth (value : Bool) : IsValue [.truth value]
  | number (n : Numeral) : IsValue [.number n]
  | text (content : Except Fault String) : IsValue [.text content]
  | list {items : List (List Token)} (h : ∀ item ∈ items, IsValue item) :
    IsValue (.openBracket :: (joined items ++ [.closeBracket]))
  | object {fields : List (Except Fault String × List Token)} (h : ∀ f ∈ fields, IsValue f.2) :
    IsValue (.openBrace ::
      (joined (fields.map fun f => .text f.1 :: .colon :: f.2) ++ [.closeBrace]))

theorem IsValue.separated {tokens : List Token} (h : IsValue tokens) : Separated tokens := by
  induction h with
  | list _ ih => exact .cons id (Token.separated_joined ih trivial (.singleton _))
  | object _ ih =>
    refine .cons id (Token.separated_joined ?_ trivial (.singleton _))
    rintro _ hv
    obtain ⟨f, hf, rfl⟩ := List.mem_map.1 hv
    exact .cons id (.cons id (ih f hf))
  | _ => exact .singleton _

variable {t : Token} {rest : List Token} {opened inner : List Opened} {awaited : Awaited}

theorem skipFrom_value (h : startValue opened t = .ok (inner, awaited)) :
    skipFrom opened .value (t :: rest) = skipFrom inner awaited rest := by
  have hvalue : skipFrom opened .value (t :: rest) =
      startValue opened t >>= fun next => skipFrom next.1 next.2 rest := by
    rcases opened with _ | ⟨_ | _, outer⟩ <;> rfl
  rw [hvalue, h]
  rfl

theorem skipFrom_first (h : startValue (.list :: opened) t = .ok (inner, awaited)) :
    skipFrom (.list :: opened) .first (t :: rest) = skipFrom inner awaited rest := by
  cases t with
  | closeBracket => cases h
  | _ =>
    change (startValue (.list :: opened) _ >>= fun next => skipFrom next.1 next.2 rest) = _
    rw [h]
    rfl

theorem skipFrom_comma :
    skipFrom (.list :: opened) .next (.comma :: rest) = skipFrom (.list :: opened) .value rest :=
  rfl

/-- After its key and a colon the value of a field is awaited. -/
theorem skipFrom_first_key (content : Except Fault String) :
    skipFrom (.object :: opened) .first (.text content :: .colon :: rest) =
      skipFrom (.object :: opened) .value rest :=
  rfl

theorem skipFrom_comma_key (content : Except Fault String) :
    skipFrom (.object :: opened) .next (.comma :: .text content :: .colon :: rest) =
      skipFrom (.object :: opened) .value rest :=
  rfl

/-- The items of a list are passed over, up to its closing bracket. -/
theorem skipFrom_items {items : List (List Token)} (hitems : ∀ item ∈ items, ∀ opened rest,
      skipFrom opened .value (item ++ rest) = skipFrom opened .next rest ∧
        skipFrom (.list :: opened) .first (item ++ rest) = skipFrom (.list :: opened) .next rest) :
    skipFrom (.list :: opened) .first (joined items ++ .closeBracket :: rest) =
      skipFrom opened .next rest := by
  have hmore (items : List (List Token)) (hitems : ∀ item ∈ items, ∀ opened rest,
      skipFrom opened .value (item ++ rest) = skipFrom opened .next rest) :
      skipFrom (.list :: opened) .next (items.flatMap (.comma :: ·) ++ .closeBracket :: rest) =
        skipFrom opened .next rest := by
    induction items with
    | nil => rfl
    | cons item items ih =>
      rw [List.forall_mem_cons] at hitems
      rw [List.flatMap_cons, List.append_assoc, List.cons_append, skipFrom_comma, hitems.1]
      exact ih hitems.2
  cases items with
  | nil => rfl
  | cons item items =>
    rw [List.forall_mem_cons] at hitems
    rw [joined, List.append_assoc, (hitems.1 _ _).2]
    exact hmore items fun item hitem opened rest => (hitems.2 item hitem opened rest).1

/-- The fields of an object are passed over like the items of a list, each with its key. -/
theorem skipFrom_fields {fields : List (Except Fault String × List Token)}
    (hfields : ∀ f ∈ fields, ∀ opened rest,
      skipFrom opened .value (f.2 ++ rest) = skipFrom opened .next rest) :
    skipFrom (.object :: opened) .first
      (joined (fields.map fun f => .text f.1 :: .colon :: f.2) ++ .closeBrace :: rest) =
        skipFrom opened .next rest := by
  have hmore (fields : List (Except Fault String × List Token))
      (hfields : ∀ f ∈ fields, ∀ opened rest,
        skipFrom opened .value (f.2 ++ rest) = skipFrom opened .next rest) :
      skipFrom (.object :: opened) .next
        ((fields.map fun f => .text f.1 :: .colon :: f.2).flatMap (.comma :: ·) ++
          .closeBrace :: rest) = skipFrom opened .next rest := by
    induction fields with
    | nil => rfl
    | cons f fields ih =>
      rw [List.forall_mem_cons] at hfields
      simp only [List.map_cons, List.flatMap_cons, List.cons_append, List.append_assoc]
      rw [skipFrom_comma_key, hfields.1]
      exact ih hfields.2
  cases fields with
  | nil => rfl
  | cons f fields =>
    rw [List.forall_mem_cons] at hfields
    simp only [joined, List.map_cons, List.cons_append, List.append_assoc]
    rw [skipFrom_first_key, hfields.1]
    exact hmore fields hfields.2

/-- Where a value is awaited, it is passed over; also right after an opening bracket. -/
theorem IsValue.skipFrom {tokens : List Token} (h : IsValue tokens) (opened : List Opened)
    (rest : List Token) :
    skipFrom opened .value (tokens ++ rest) = skipFrom opened .next rest ∧
      skipFrom (.list :: opened) .first (tokens ++ rest) =
        skipFrom (.list :: opened) .next rest := by
  induction h generalizing opened rest with
  | @list items h ih =>
    simp only [List.cons_append, List.append_assoc, List.nil_append]
    exact ⟨(skipFrom_value rfl).trans (skipFrom_items ih),
      (skipFrom_first rfl).trans (skipFrom_items ih)⟩
  | @object fields h ih =>
    have hfields (opened : List Opened) (rest : List Token) :=
      @skipFrom_fields rest opened fields fun f hf opened rest => (ih f hf opened rest).1
    simp only [List.cons_append, List.append_assoc, List.nil_append]
    exact ⟨(skipFrom_value rfl).trans (hfields _ _), (skipFrom_first rfl).trans (hfields _ _)⟩
  | _ => exact ⟨skipFrom_value rfl, skipFrom_first rfl⟩

theorem IsValue.skipValue {tokens : List Token} (h : IsValue tokens) (rest : List Token) :
    skipValue (tokens ++ rest) = .ok rest := by
  rw [Json.skipValue, (h.skipFrom [] rest).1]
  cases rest with
  | nil => rfl
  | cons t rest => rfl

end Json

end NetDesc
