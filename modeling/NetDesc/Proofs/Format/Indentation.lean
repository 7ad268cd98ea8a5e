import Mathlib.Data.List.DropRight
import NetDesc.Render

namespace NetDesc

namespace Layout

/-- A text without a line break. -/
def IsLine (t : String) : Prop :=
  '\n' ∉ t.toList

/-- The lines of a text, with empty ones. There is at least one. Margins hold no line break, so a
    text that is moved to the right has as many lines as before. -/
def linesOf (s : String) : List String :=
  (s.toList.splitOn '\n').map String.ofList

/-- What is left of a text without its first characters. -/
def withoutFirst (count : Nat) (t : String) : String :=
  String.ofList (t.toList.drop count)

/-- The text with so many characters cut off at the front of every line. -/
def unindent (s : String) (width : Nat) : String :=
  Render.lines ((linesOf s).map (withoutFirst width))

/-- The text with so many characters cut off at the front of every line but the first. -/
def unindentRest (s : String) (width : Nat) : String :=
  match linesOf s with
  | [] => ""
  | first :: rest => Render.lines (first :: rest.map (withoutFirst width))

/-- What stands between brackets, each with the separator on its inner side. -/
def inBrackets (text : String) : String :=
  String.ofList ((text.toList.drop 2).rdrop 2)

/-- Takes the brackets off and moves what is left to the left by two. A first line that follows the
    opening bracket has no margin. -/
def unnest (text : String) (ownLines : Bool) : String :=
  if ownLines then unindent (inBrackets text) 2 else unindentRest (inBrackets text) 2

/-- Brackets, and whether they stand on lines of their own. -/
structure Brackets where
  opening : Char
  ownLines : Bool
  closing : Char

/-- The text in brackets in brackets, the first of which are the outermost. -/
def nestAll (brackets : List Brackets) (s : String) : String :=
  brackets.foldr (fun b inner => nest inner b.opening b.ownLines b.closing) s

section Lines

variable {texts : List String}

theorem linesOf_ne_nil (s : String) : linesOf s ≠ [] := by
  rw [linesOf, Ne, List.map_eq_nil_iff]
  exact List.splitOn_ne_nil _ _

theorem not_mem_of_mem_splitOn {c : Char} {chars piece : List Char}
    (h : piece ∈ chars.splitOn c) : c ∉ piece := by
  induction chars generalizing piece with
  | nil => simp_all
  | cons d chars ih =>
    rw [List.splitOn_cons_eq_if_modifyHead] at h
    split at h
    · obtain rfl | h := List.mem_cons.1 h
      · exact List.not_mem_nil
      · exact ih h
    · next hd =>
      -- A character that does not split goes to the piece that begins here.
      cases hpieces : chars.splitOn c with
      | nil => exact absurd hpieces (List.splitOn_ne_nil _ _)
      | cons first rest =>
        rw [hpieces, List.modifyHead_cons] at h
        rw [hpieces] at ih
        obtain rfl | h := List.mem_cons.1 h
        · have hne : c ≠ d := by
            rintro rfl
            exact hd (beq_self_eq_true c)
          exact List.not_mem_cons_of_ne_of_not_mem hne (ih List.mem_cons_self)
        · exact ih (List.mem_cons_of_mem _ h)

theorem isLine_of_mem_linesOf {s t : String} (h : t ∈ linesOf s) : IsLine t := by
  obtain ⟨chars, hchars, rfl⟩ := List.mem_map.1 h
  rw [IsLine, String.toList_ofList]
  exact not_mem_of_mem_splitOn hchars

theorem lines_linesOf (s : String) : Render.lines (linesOf s) = s := by
  have htexts : (linesOf s).map String.toList = s.toList.splitOn '\n' := by
    rw [linesOf, List.map_map]
    exact List.map_id'' (fun _ => String.toList_ofList) _
  apply String.toList_injective
  rw [Render.lines, String.toList_intercalate, htexts]
  exact List.intercalate_splitOn '\n'

theorem linesOf_lines (htexts : ∀ t ∈ texts, IsLine t) (hne : texts ≠ []) :
    linesOf (Render.lines texts) = texts := by
  have hchars : ∀ chars ∈ texts.map String.toList, '\n' ∉ chars := List.forall_mem_map.2 htexts
  rw [linesOf, Render.lines, String.toList_intercalate]
  change ((['\n'].intercalate _).splitOn '\n').map _ = _
  rw [List.splitOn_intercalate '\n' hchars (mt List.map_eq_nil_iff.1 hne), List.map_map]
  exact List.map_id'' (fun _ => String.ofList_toList) _

/-- Every text consists of a first line and those that follow it. -/
theorem exists_lines (s : String) : ∃ first rest, IsLine first ∧ (∀ t ∈ rest, IsLine t) ∧
    linesOf s = first :: rest ∧ s = Render.lines (first :: rest) := by
  obtain ⟨first, rest, hlines⟩ := List.exists_cons_of_ne_nil (linesOf_ne_nil s)
  have hall : ∀ t ∈ first :: rest, IsLine t := by
    intro t ht
    exact isLine_of_mem_linesOf (hlines ▸ ht)
  obtain ⟨hfirst, hrest⟩ := List.forall_mem_cons.1 hall
  exact ⟨first, rest, hfirst, hrest, hlines, by rw [← hlines, lines_linesOf]⟩

end Lines

section Margins

/-- Spaces in front of a line. -/
def spaces (width : Nat) : String :=
  String.ofList (margin width)

/-- The text with every line but the first moved to the right. -/
def indentRest (s : String) (width : Nat) : String :=
  String.ofList (s.toList.flatMap (withMargin width))

variable {first t : String} {texts rest : List String} (a b : Nat)

theorem spaces_append_spaces : spaces b ++ spaces a = spaces (a + b) := by
  rw [spaces, spaces, spaces, ← String.ofList_append, margin, margin, margin,
    List.replicate_append_replicate, Nat.add_comm]

theorem isLine_spaces : IsLine (spaces a) := by
  rw [IsLine, spaces, String.toList_ofList, margin, List.mem_replicate]
  rintro ⟨-, h⟩
  exact absurd h (by decide)

theorem IsLine.append {t u : String} (ht : IsLine t) (hu : IsLine u) : IsLine (t ++ u) := by
  rw [IsLine, String.toList_append, List.mem_append]
  exact not_or.2 ⟨ht, hu⟩

theorem isLine_map_spaces (h : ∀ t ∈ texts, IsLine t) :
    ∀ t ∈ texts.map (spaces a ++ ·), IsLine t := by
  rw [List.forall_mem_map]
  exact fun t ht => (isLine_spaces a).append (h t ht)

theorem withoutFirst_spaces (t : String) : withoutFirst a (spaces a ++ t) = t := by
  have hlength : (margin a).length = a := List.length_replicate ..
  rw [withoutFirst, String.toList_append, spaces, String.toList_ofList, List.drop_left' hlength,
    String.ofList_toList]

theorem map_withoutFirst_spaces (texts : List String) :
    (texts.map (spaces a ++ ·)).map (withoutFirst a) = texts := by
  rw [List.map_map]
  exact List.map_id'' (withoutFirst_spaces a) texts

theorem indent_eq (s : String) : indent s a = spaces a ++ indentRest s a := by
  rw [indent, indentChars, spaces, indentRest, String.ofList_append]

theorem indentRest_append (s t : String) :
    indentRest (s ++ t) a = indentRest s a ++ indentRest t a := by
  rw [indentRest, String.toList_append, List.flatMap_append, String.ofList_append, indentRest,
    indentRest]

theorem indentRest_newline : indentRest "\n" a = "\n" ++ spaces a := by
  apply String.toList_injective
  simp [indentRest, spaces, withMargin]

theorem indentRest_line (ht : IsLine t) : indentRest t a = t := by
  have hchars : t.toList.flatMap (withMargin a) = t.toList.flatMap fun c => [c] := by
    refine List.flatMap_congr fun c hc => if_neg ?_
    rintro rfl
    exact ht hc
  rw [indentRest, hchars, List.flatMap_singleton', String.ofList_toList]

/-- Only lines that follow a line break get a margin. -/
theorem indentRest_lines (hfirst : IsLine first) (hrest : ∀ t ∈ rest, IsLine t) :
    indentRest (Render.lines (first :: rest)) a =
      Render.lines (first :: rest.map (spaces a ++ ·)) := by
  -- Induction on the lines: what follows a line break begins with a first line again.
  induction rest generalizing first with
  | nil =>
    simp only [Render.lines, List.map_nil, String.intercalate_singleton]
    exact indentRest_line a hfirst
  | cons t rest ih =>
    obtain ⟨ht, hrest⟩ := List.forall_mem_cons.1 hrest
    have ih := ih ht hrest
    simp only [Render.lines] at ih ⊢
    rw [String.intercalate_cons_cons, indentRest_append, indentRest_append,
      indentRest_line a hfirst, indentRest_newline, ih, List.map_cons, String.intercalate_cons_cons,
      String.intercalate_cons_append]
    simp only [String.append_assoc]

/-- Every line gets the margin, also an empty one. -/
theorem linesOf_indent (s : String) : linesOf (indent s a) = (linesOf s).map (spaces a ++ ·) := by
  obtain ⟨first, rest, hfirst, hrest, hlines, hs⟩ := exists_lines s
  have hindent : indent s a = Render.lines ((first :: rest).map (spaces a ++ ·)) := by
    rw [indent_eq, hs, indentRest_lines a hfirst hrest, List.map_cons, Render.lines, Render.lines,
      String.intercalate_cons_append]
  have hall : ∀ t ∈ first :: rest, IsLine t := List.forall_mem_cons.2 ⟨hfirst, hrest⟩
  rw [hlines, hindent]
  exact linesOf_lines (isLine_map_spaces a hall) (List.cons_ne_nil _ _)

theorem indent_eq_lines (s : String) :
    indent s a = Render.lines ((linesOf s).map (spaces a ++ ·)) := by
  rw [← linesOf_indent, lines_linesOf]

theorem indent_indent (s : String) : indent (indent s a) b = indent s (a + b) := by
  have hmargins : (spaces b ++ ·) ∘ (spaces a ++ ·) = (spaces (a + b) ++ ·) := by
    funext t
    rw [Function.comp_apply, ← String.append_assoc, spaces_append_spaces]
  rw [indent_eq_lines b, linesOf_indent, List.map_map, hmargins, indent_eq_lines]

theorem unindent_indent (s : String) : unindent (indent s a) a = s := by
  rw [unindent, linesOf_indent, map_withoutFirst_spaces, lines_linesOf]

theorem unindentRest_indentRest (s : String) : unindentRest (indentRest s a) a = s := by
  obtain ⟨first, rest, hfirst, hrest, -, rfl⟩ := exists_lines s
  have hlines : linesOf (indentRest (Render.lines (first :: rest)) a) =
      first :: rest.map (spaces a ++ ·) := by
    have hall : ∀ t ∈ first :: rest.map (spaces a ++ ·), IsLine t :=
      List.forall_mem_cons.2 ⟨hfirst, isLine_map_spaces a hrest⟩
    rw [indentRest_lines a hfirst hrest]
    exact linesOf_lines hall (List.cons_ne_nil _ _)
  rw [unindentRest, hlines]
  exact congrArg (fun texts => Render.lines (first :: texts)) (map_withoutFirst_spaces a rest)

end Margins

section Nesting

/-- What stands between a bracket and the text. -/
def separator (ownLines : Bool) : Char :=
  if ownLines then '\n' else ' '

/-- What stands between the brackets and their separators. -/
def body (s : String) (ownLines : Bool) : String :=
  if ownLines then indent s 2 else indentRest s 2

variable (s : String) (opening : Char) (ownLines : Bool) (closing : Char)

theorem separator_injective : Function.Injective separator := by
  intro x y
  decide +revert

theorem toList_nest : (nest s opening ownLines closing).toList =
    opening :: separator ownLines ::
      ((body s ownLines).toList ++ [separator ownLines, closing]) := by
  cases ownLines <;>
    simp [nest, separator, body, indent, indentRest, indentChars, margin, List.replicate_succ]

theorem inBrackets_nest : inBrackets (nest s opening ownLines closing) = body s ownLines := by
  rw [inBrackets, toList_nest, List.drop_succ_cons, List.drop_succ_cons, List.drop_zero]
  exact (congrArg String.ofList List.rdrop_append_length).trans String.ofList_toList

theorem unnest_nest : unnest (nest s opening ownLines closing) ownLines = s := by
  rw [unnest, inBrackets_nest, body]
  split
  · exact unindent_indent 2 s
  · exact unindentRest_indentRest 2 s

/-- Texts in brackets that look alike are the same texts in the same brackets. -/
theorem nest_inj {s' : String} {opening' : Char} {ownLines' : Bool} {closing' : Char} :
    nest s opening ownLines closing = nest s' opening' ownLines' closing' ↔
      s = s' ∧ opening = opening' ∧ ownLines = ownLines' ∧ closing = closing' := by
  constructor
  · intro h
    have hchars := congrArg String.toList h
    rw [toList_nest, toList_nest, List.cons.injEq, List.cons.injEq] at hchars
    obtain ⟨hopening, hseparator, hrest⟩ := hchars
    obtain ⟨-, hend⟩ := List.append_inj' hrest rfl
    have hownLines := separator_injective hseparator
    have hclosing : closing = closing' := by simpa [hseparator] using hend
    have htext := congrArg (unnest · ownLines) h
    rw [unnest_nest, hownLines, unnest_nest] at htext
    exact ⟨htext, hopening, hownLines, hclosing⟩
  · rintro ⟨rfl, rfl, rfl, rfl⟩
    rfl

/-- Brackets in brackets are taken off from the outside to the inside. -/
theorem unnest_nestAll (brackets : List Brackets) :
    (brackets.map (·.ownLines)).foldl unnest (nestAll brackets s) = s := by
  induction brackets with
  | nil => rfl
  | cons b brackets ih =>
    rw [List.map_cons, List.foldl_cons, nestAll, List.foldr_cons, unnest_nest]
    exact ih

end Nesting

/-- Indentation composes and is lossless. Moving a text to the right twice is moving it once by both
    widths, it has as many lines as before, and with the margins cut off it is what it was. The same
    goes for brackets, however many are around each other: what is in them is left when they are
    taken off, and two texts in brackets look alike only if the texts and the brackets are the
    same. -/
theorem indentation_lossless (s : String) (a b : Nat) :
    indent (indent s a) b = indent s (a + b) ∧
      (linesOf (indent s a)).length = (linesOf s).length ∧
      unindent (indent s a) a = s ∧
      (∀ opening ownLines closing, unnest (nest s opening ownLines closing) ownLines = s) ∧
      (∀ brackets : List Brackets,
        (brackets.map (·.ownLines)).foldl unnest (nestAll brackets s) = s) ∧
      ∀ s' opening ownLines closing opening' ownLines' closing',
        nest s opening ownLines closing = nest s' opening' ownLines' closing' ↔
          s = s' ∧ opening = opening' ∧ ownLines = ownLines' ∧ closing = closing' := by
  refine ⟨indent_indent a b s, ?_, unindent_indent a s, unnest_nest s, unnest_nestAll s, ?_⟩
  · rw [linesOf_indent, List.length_map]
  · intro s' opening ownLines closing opening' ownLines' closing'
    exact nest_inj s opening ownLines closing

/-- The opening bracket stands in place of a space of the first line, and empty lines get their
    margin. -/
example : nest "a\n\nb" '(' false ')' = "( a\n  \n  b )" ∧ nest "" '[' true ']' = "[\n  \n]" := by
  decide +kernel

end Layout

end NetDesc
