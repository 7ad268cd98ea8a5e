import NetDesc.Proofs.Tree.Forms

namespace NetDesc

namespace Json

mutual

/-- How deep the arrays and objects of a document are nested. -/
def nesting : Json → Nat
  | .truth _ | .word _ | .real _ | .text _ => 0
  | .list items => 1 + nestingOfItems items
  | .object fields => 1 + nestingOfFields fields

def nestingOfItems : List Json → Nat
  | [] => 0
  | item :: rest => max item.nesting (nestingOfItems rest)

def nestingOfFields : List (String × Json) → Nat
  | [] => 0
  | (_, value) :: rest => max value.nesting (nestingOfFields rest)

end

theorem nestingOfItems_eq (items : List Json) :
    nestingOfItems items = deepest (items.map nesting) := by
  induction items with
  | nil => rfl
  | cons item items ih =>
    rw [nestingOfItems, ih]
    rfl

theorem nestingOfFields_eq (fields : List (String × Json)) :
    nestingOfFields fields = deepest (fields.map (·.2.nesting)) := by
  induction fields with
  | nil => rfl
  | cons f fields ih =>
    rw [nestingOfFields, ih]
    rfl

end Json

namespace Binary64

def IsFinite : Binary64 → Prop
  | finite .. => True
  | _ => False

end Binary64

namespace Tree

open Json (Token stringText)
open Json.Token (joined Separated Spaced Spelled)

section Rendering

variable {P : Float → Prop} {shape : Shape} {part : Part} {j : Json}

/-- The field as it is written. -/
def Filled.given (f : Filled) (tokens : List Token) : Given where
  json := f.json
  nesting := f.json.nesting
  tokens := tokens
  field := f.field

theorem spaced_name (name : String) : Spaced [.text (.ok name)] (stringText name).toList :=
  (Json.spelled_stringText name).spaced

/-- What is written is one of the forms, nested as deep as the document. -/
theorem Written.form_render (h : Written P shape part j)
    (hfinite : ∀ x, P x → (Binary64.ofFloat x).IsFinite) :
    ∃ tokens, Form shape j j.nesting tokens ∧ Spaced tokens j.render.toList := by
  induction h with
  | @number x hx =>
    have hx := hfinite x hx
    cases hparts : Binary64.ofFloat x with
    | finite negative mantissa exponent =>
      obtain ⟨n, hn⟩ := Json.spelled_realText hparts
      exact ⟨_, .number hn, (Spelled.number hn).spaced⟩
    | _ => simp [hparts, Binary64.IsFinite] at hx
  | text s => exact ⟨_, .text s, spaced_name s⟩
  | flag b =>
    refine ⟨_, .flag b, ?_⟩
    cases b with
    | true => exact Spelled.yes.spaced
    | false => exact Spelled.no.spaced
  | word w =>
    have hw :
        Json.Numeral.Spelled { negative := false, whole := Token.digitsOf (toString w).toList }
          (toString w).toList := by
      have hwhole := Json.wholeSpelled_toString w.toNat
      have hspelled := Json.Numeral.Spelled.mk false hwhole .none .none
      rw [List.append_nil, List.append_nil] at hspelled
      exact hspelled
    exact ⟨_, .word hw, (Spelled.number hw).spaced⟩
  | @list item items _ ih =>
    choose! tokens hform hspaced using ih
    have hlist := @Form.list item (items.map fun i => ⟨i.2, i.2.nesting, tokens i⟩)
      (List.forall_mem_map.2 hform)
    refine ⟨.openBracket :: (joined (items.map tokens) ++ [.closeBracket]), ?_, ?_⟩
    · simpa [Json.nesting, Json.nestingOfItems_eq, Function.comp_def] using hlist
    · have hitems := @Json.spaced_renderItems (items.map fun i => (i.2, tokens i))
        (List.forall_mem_map.2 hspaced)
      simpa [Json.render, Function.comp_def] using
        Spelled.openBracket.spaced.append (hitems.append Spelled.closeBracket.spaced)
  | @group g fields part hfields _ _ ih =>
    choose! tokens hform hspaced using ih
    have hgivens : Entry.givens (fields.map fun f => .known (f.given (tokens f))) =
        fields.map fun f => f.given (tokens f) := by
      simp [Entry.givens, List.filterMap_map, Function.comp_def, Entry.given?]
    have hobject := @Form.object g (fields.map fun f => (f.field, f.json))
      (by rw [List.map_map]; exact hfields) (fields.map fun f => .known (f.given (tokens f))) []
      (by rw [hgivens, List.append_nil, List.map_map]; exact .refl _) (by simp) (by simp)
      (by rw [hgivens]; exact List.forall_mem_map.2 hform)
    refine ⟨.openBrace :: (joined (fields.map fun f =>
      .text (.ok f.field.name) :: .colon :: tokens f) ++ [.closeBrace]), ?_, ?_⟩
    · rw [hgivens] at hobject
      simpa [Json.nesting, Json.nestingOfFields_eq, Function.comp_def, Filled.given, Entry.tokens]
        using hobject
    · have hfields := @Json.spaced_renderFields
        (fields.map fun f => (f.field.name, f.json, tokens f)) (List.forall_mem_map.2 hspaced)
      simpa [Json.render, Function.comp_def] using
        Spelled.openBrace.spaced.append (hfields.append Spelled.closeBrace.spaced)
  | name hvariant _ => exact ⟨_, .name hvariant, spaced_name _⟩
  | @variant c name contents shape inner part j hvariant hshape _ _ ih =>
    obtain ⟨tokens, hform, hspaced⟩ := ih
    have hnesting : (Tree.variant name j).nesting = 1 + j.nesting := by
      simp [Tree.variant, Json.nesting, Json.nestingOfFields]
    refine ⟨_, by rw [hnesting]; exact .variant hvariant hshape hform, ?_⟩
    have hfields := @Json.spaced_renderFields [(name, j, tokens)] (by simpa using hspaced)
    simpa [Tree.variant, Json.render, joined] using
      Spelled.openBrace.spaced.append (hfields.append Spelled.closeBrace.spaced)

end Rendering

section Loading

variable {t : Expr} {nesting : Nat} {tokens : List Token}

/-- Text that spells a form of a tree's document is read as the tree, unless its brackets are
    nested too deep. -/
theorem Form.ofText (h : Form (.group .expr) (document t) nesting tokens)
    (hreads : ∀ x, t.HasNumber x → ReadsBack x) {text : String}
    (htext : Spaced tokens text.toList) :
    ofText text = if nesting ≤ maxNesting then .ok t else .error .malformed := by
  rw [Tree.ofText, Token.ofText_of_spaced htext h.separated, ofTokens]
  have hread := h.reads (written_document t hreads) (Nat.lt_succ_self _) maxNesting []
  rw [List.append_nil] at hread
  rw [hread]
  by_cases hnesting : nesting ≤ maxNesting
  · rw [within, if_pos hnesting, if_pos hnesting]
    rfl
  · rw [within, if_neg hnesting, if_neg hnesting]
    rfl

/-- A number with a minus in front. -/
def negHalf : Expr :=
  .mk (.unary .neg (.mk (.number 0.5) .unknown)) .unknown

theorem negHalf_hasNumber {x : Float} (h : negHalf.HasNumber x) : x = 0.5 := by
  rw [Expr.hasNumber_iff] at h
  obtain h | ⟨b, part, hpart, h⟩ := h
  · cases h
  · simp only [negHalf, Expr.kind, ExprKind.parts, List.mem_singleton, Prod.mk.injEq] at hpart
    obtain ⟨-, rfl⟩ := hpart
    rw [Expr.hasNumber_iff] at h
    obtain h | ⟨b, part, hpart, -⟩ := h
    · cases h
      rfl
    · cases hpart

theorem spelled_half : Json.Numeral.Spelled ⟨false, [0], some [5], none⟩ ['0', '.', '5'] :=
  have hwhole : Json.Numeral.WholeSpelled ['0'] := ⟨.singleton rfl, fun _ => rfl⟩
  have hdigits : Json.Digits ['5'] := .singleton rfl
  .mk false hwhole (.some hdigits) .none

theorem realText_half : Json.realText 0.5 = "0.5" := by
  decide +kernel

theorem spelled_realText_half :
    Json.Numeral.Spelled ⟨false, [0], some [5], none⟩ (Json.realText 0.5).toList := by
  rw [realText_half]
  exact spelled_half

theorem readsBack_half : ReadsBack 0.5 := by
  have htext : Token.ofText "0.5" = [.number ⟨false, [0], some [5], none⟩] := rfl
  have hmeaning : (Json.Numeral.mk false [0] (some [5]) none).meaning? = some (.real 0.5) := by
    decide +kernel
  rw [ReadsBack, realText_half, htext, readNumber, hmeaning]

/-- The text of a tree is read as the tree if its arrays and objects are nested at most 127 deep.
    Otherwise it is refused. It is taken for granted that the text of each number in the tree is
    read as that number. -/
theorem ofText_render (t : Expr)
    (hfinite : ∀ x, t.HasNumber x → (Binary64.ofFloat x).IsFinite)
    (hreads : ∀ x, t.HasNumber x → ReadsBack x) :
    Tree.ofText (render t) =
      if (document t).nesting ≤ 127 then .ok t else .error .malformed := by
  have hwritten := written_document (P := t.HasNumber) t fun _ h => h
  obtain ⟨tokens, hform, hspaced⟩ := hwritten.form_render hfinite
  exact hform.ofText hreads hspaced

theorem ofText_render_negHalf :
    (∀ x, negHalf.HasNumber x → (Binary64.ofFloat x).IsFinite) ∧
      (∀ x, negHalf.HasNumber x → ReadsBack x) ∧ Tree.ofText (render negHalf) = .ok negHalf := by
  have hfinite (x : Float) (hx : negHalf.HasNumber x) : (Binary64.ofFloat x).IsFinite := by
    have hhalf : Binary64.ofFloat 0.5 = .finite false (Nat.pow 2 52) (-53) := by decide +kernel
    rw [negHalf_hasNumber hx, hhalf]
    trivial
  have hreads (x : Float) (hx : negHalf.HasNumber x) : ReadsBack x :=
    negHalf_hasNumber hx ▸ readsBack_half
  exact ⟨hfinite, hreads, (ofText_render negHalf hfinite hreads).trans (if_pos (by decide))⟩

/-- Any text that gives a tree's document in one of its forms is read as the tree, as long as what
    is read of it is nested at most 127 deep: fields may come in any order, with unknown ones among
    them or without those that have their defaults, or as an array, names may come with null, and
    blanks may stand anywhere. -/
theorem ofText_of_form {t : Expr} {nesting : Nat} {tokens : List Token} {text : String}
    (hreads : ∀ x, t.HasNumber x → ReadsBack x)
    (hform : Form (.group .expr) (document t) nesting tokens)
    (htext : Spaced tokens text.toList) (hnesting : nesting ≤ 127) :
    Tree.ofText text = .ok t :=
  (hform.ofText hreads htext).trans (if_pos hnesting)

/-- The operand as an array without its location, the operator with null, the fields in the other
    order with an unknown one behind them, and a blank. -/
def negHalfText : String :=
  "[\x7b\"Unary\":\x7b\"operand\": [\x7b\"Number\":0.5\x7d],\"op\":\x7b\"Neg\":null\x7d,\"x\":[]\x7d\x7d]"

theorem ofText_negHalfText :
    ∃ nesting tokens, (∀ x, negHalf.HasNumber x → ReadsBack x) ∧
      Form (.group .expr) (document negHalf) nesting tokens ∧
      Spaced tokens negHalfText.toList ∧ nesting ≤ 127 ∧ Tree.ofText negHalfText = .ok negHalf := by
  have hreads (x : Float) (hx : negHalf.HasNumber x) : ReadsBack x :=
    negHalf_hasNumber hx ▸ readsBack_half
  have hexpr {kind : ExprKind} {nesting : Nat} {tokens : List Token}
      (h : Form (.choice .kind) (kindDocument kind) nesting tokens) :
      Form (.group .expr) (document (.mk kind .unknown)) (1 + max nesting 0)
        (.openBracket :: (tokens ++ [] ++ [.closeBracket])) :=
    @Form.array .expr [⟨⟨kindDocument kind, nesting, tokens⟩, ⟨"kind", .choice .kind, none⟩⟩]
      [(.location, locationDocument .unknown)] rfl (by simp; rfl) (by simpa using h)
  have hnumber : Form (.choice .kind) (kindDocument (.number 0.5)) _ _ :=
    .variant (show ⟨"Number", .one .number⟩ ∈ Choice.kind.variants by decide) rfl
      (.number spelled_realText_half)
  have hoperand := hexpr hnumber
  have hop : Form (.choice .unaryOp) (.text "Neg") 1 _ := .nullName (by decide)
  have hunary : Form (.group .unary) _ _ _ := @Form.object .unary
    [(⟨"op", .choice .unaryOp, none⟩, .text "Neg"),
      (.expr "operand", document (.mk (.number 0.5) .unknown))] rfl
    [.known ⟨⟨_, _, _⟩, .expr "operand"⟩, .known ⟨⟨_, _, _⟩, ⟨"op", .choice .unaryOp, none⟩⟩,
      .unknown "x" [.openBracket, .closeBracket]]
    [] (.swap _ _ _) (by simp)
    (by
      simp only [List.mem_cons, Entry.unknown.injEq, reduceCtorEq, List.not_mem_nil, or_false,
        false_or]
      rintro _ _ ⟨rfl, rfl⟩
      exact ⟨by decide, @Json.IsValue.list [] (by simp)⟩)
    (by simpa [Entry.givens, Entry.given?] using ⟨hoperand, hop⟩)
  have hkind : Form (.choice .kind) (kindDocument (.unary .neg (.mk (.number 0.5) .unknown))) _ _ :=
    .variant (show ⟨"Unary", .group .unary⟩ ∈ Choice.kind.variants by decide) rfl hunary
  have hform := hexpr hkind
  have hblank : Spaced [Token.openBracket] ([' '] ++ ['[']) :=
    Spelled.openBracket.spaced.after_blanks (List.forall_mem_singleton.2 rfl)
  have htext : Spaced _ negHalfText.toList :=
    Spelled.openBracket.spaced.append <| Spelled.openBrace.spaced.append <|
    (spaced_name "Unary").append <| Spelled.colon.spaced.append <|
    Spelled.openBrace.spaced.append <| (spaced_name "operand").append <|
    Spelled.colon.spaced.append <|
    hblank.append <|
    Spelled.openBrace.spaced.append <| (spaced_name "Number").append <|
    Spelled.colon.spaced.append <| (Spelled.number spelled_half).spaced.append <|
    Spelled.closeBrace.spaced.append <| Spelled.closeBracket.spaced.append <|
    Spelled.comma.spaced.append <| (spaced_name "op").append <| Spelled.colon.spaced.append <|
    Spelled.openBrace.spaced.append <| (spaced_name "Neg").append <|
    Spelled.colon.spaced.append <| Spelled.null.spaced.append <|
    Spelled.closeBrace.spaced.append <| Spelled.comma.spaced.append <|
    (spaced_name "x").append <| Spelled.colon.spaced.append <|
    Spelled.openBracket.spaced.append <| Spelled.closeBracket.spaced.append <|
    Spelled.closeBrace.spaced.append <| Spelled.closeBrace.spaced.append <|
    Spelled.closeBracket.spaced
  exact ⟨_, _, hreads, hform, htext, by decide, ofText_of_form hreads hform htext (by decide)⟩

def loadedNumber? : Except LoadError Expr → Option Float
  | .ok (.mk (.number x) _) => some x
  | _ => none

/-- Numbers with many digits may be read with an error in the last bit, so without the assumption
    on them not even what is written is always read as the tree. -/
theorem form_misread :
    ∃ t nesting tokens text, (∀ x, Expr.HasNumber t x → (Binary64.ofFloat x).IsFinite) ∧
      Form (.group .expr) (document t) nesting tokens ∧ Spaced tokens (String.toList text) ∧
      nesting ≤ 127 ∧ Tree.ofText text ≠ .ok t := by
  let t : Expr := .mk (.number 3.9000000000000004) .unknown
  have hfinite (x : Float) (hx : t.HasNumber x) : (Binary64.ofFloat x).IsFinite := by
    obtain h | ⟨b, part, hpart, -⟩ := Expr.hasNumber_iff.1 hx
    · have hparts : Binary64.ofFloat 3.9000000000000004 =
          .finite false 8782019273372468 (-51) := by decide +kernel
      cases h
      rw [hparts]
      trivial
    · cases hpart
  obtain ⟨tokens, hform, hspaced⟩ := (written_document t fun _ h => h).form_render hfinite
  refine ⟨t, _, tokens, render t, hfinite, hform, hspaced, by decide, fun h => ?_⟩
  have hread : loadedNumber? (Tree.ofText (render t)) = some 3.9 := by decide +kernel
  have hne : (3.9 : Float) ≠ 3.9000000000000004 := by decide
  rw [h] at hread
  exact hne (Option.some.inj hread).symm

end Loading

end Tree

end NetDesc
