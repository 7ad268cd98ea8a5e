import Mathlib.Data.List.Nodup
import NetDesc.Proofs.Scoping.Binder
import NetDesc.Tree.Shape
import NetDesc.Tree.Writer

namespace NetDesc

/-- The number is one of the tree's literals. -/
def Expr.HasNumber (root : Expr) (x : Float) : Prop :=
  ∃ ctx location, root.Occurs ctx (.mk (.number x) location)

theorem Expr.HasNumber.of_part {root part : Expr} {x : Float} {b : Option Binder}
    (h : part.HasNumber x) (hpart : (b, part) ∈ root.kind.parts) : root.HasNumber x := by
  obtain ⟨_, location, h⟩ := h
  obtain ⟨ctx, h⟩ := h.of_part hpart
  exact ⟨ctx, location, h⟩

/-- The literals of a tree are those of its parts, unless it is one itself. -/
theorem Expr.hasNumber_iff {root : Expr} {x : Float} :
    root.HasNumber x ↔
      root.kind = .number x ∨ ∃ b part, (b, part) ∈ root.kind.parts ∧ part.HasNumber x := by
  constructor
  · rintro ⟨ctx, location, h⟩
    generalize he : Expr.mk (.number x) location = e at h
    have hocc : e = root ∨
        ∃ b part, (b, part) ∈ root.kind.parts ∧ ∃ ctx, part.Occurs ctx e := by
      clear he
      induction h with
      | root => exact .inl rfl
      | @part ctx e inner b _ hinner ih =>
        obtain rfl | ⟨b', part, hpart, ctx', hocc⟩ := ih
        · exact .inr ⟨b, inner, hinner, [], .root⟩
        · exact .inr ⟨b', part, hpart, _, .part hocc hinner⟩
    obtain rfl | ⟨b, part, hpart, ctx', hocc⟩ := hocc
    · rw [← he]
      exact .inl rfl
    · exact .inr ⟨b, part, hpart, ctx', location, he ▸ hocc⟩
  · rintro (h | ⟨b, part, hpart, h⟩)
    · obtain ⟨kind, location⟩ := root
      cases h
      exact ⟨[], location, .root⟩
    · exact h.of_part hpart

namespace Tree

instance : Inhabited Part := ⟨.nothing⟩

/-- The shape of what comes with the name of an alternative. -/
def Contents.shape? : Contents → Option Shape
  | .nothing => none
  | .one shape => some shape
  | .group g => some (.group g)

/-- A field with what it is filled with. -/
structure Filled where
  field : Field
  part : Part
  json : Json

/-- A part of a tree and its document, by the shape that is expected there. This is the reading
    of documents as data, without tokens and without a limit to their nesting. The numbers in it
    satisfy `P`. -/
inductive Written (P : Float → Prop) : Shape → Part → Json → Prop
  | number {x : Float} (h : P x) : Written P .number (.number x) (.real x)
  | text (s : String) : Written P .text (.text s) (.text s)
  | flag (b : Bool) : Written P .flag (.flag b) (.truth b)
  | word (w : UInt32) : Written P .word (.word w) (.word w)
  | list {item : Shape} {items : List (Part × Json)} (h : ∀ i ∈ items, Written P item i.1 i.2) :
    Written P (.list item) (.list (items.map (·.1))) (.list (items.map (·.2)))
  | group {g : Group} {fields : List Filled} {part : Part}
      (hfields : fields.map (·.field) = g.fields)
      (h : ∀ f ∈ fields, Written P f.field.shape f.part f.json)
      (hpart : g.assemble? (fields.map (·.part)) = some part) :
    Written P (.group g) part (.object (fields.map fun f => (f.field.name, f.json)))
  | name {c : Choice} {name : String} {part : Part} (hvariant : ⟨name, .nothing⟩ ∈ c.variants)
      (hpart : c.assemble? name .nothing = some part) : Written P (.choice c) part (.text name)
  | variant {c : Choice} {name : String} {contents : Contents} {shape : Shape} {inner part : Part}
      {j : Json} (hvariant : ⟨name, contents⟩ ∈ c.variants) (hshape : contents.shape? = some shape)
      (h : Written P shape inner j) (hpart : c.assemble? name inner = some part) :
    Written P (.choice c) part (variant name j)

theorem Group.fields_nodup (g : Group) : (g.fields.map (·.name)).Nodup := by
  cases g <;> decide

theorem Choice.variants_nodup (c : Choice) : (c.variants.map (·.name)).Nodup := by
  cases c <;> decide

/-- Where names differ, searching for the name of an element finds the element. -/
theorem find?_name {α : Type} {l : List α} {name : α → String} (h : (l.map name).Nodup) {a : α}
    (ha : a ∈ l) : l.find? (name · == name a) = some a := by
  cases hfind : l.find? (name · == name a) with
  | none => exact absurd (List.find?_eq_none.1 hfind a ha) (by simp)
  | some b =>
    have hname := List.find?_some hfind
    rw [List.inj_on_of_nodup_map h (List.mem_of_find?_eq_some hfind) ha (by simpa using hname)]

/-- An alternative has one contents. -/
theorem Choice.contents_unique {c : Choice} {name : String} {contents contents' : Contents}
    (h : ⟨name, contents⟩ ∈ c.variants) (h' : ⟨name, contents'⟩ ∈ c.variants) :
    contents = contents' := by
  have heq := List.inj_on_of_nodup_map c.variants_nodup h h' rfl
  cases heq
  rfl

section Unique

variable {P Q : Float → Prop} {shape : Shape} {part part' : Part} {j : Json}

theorem Written.of_name {c : Choice} {name : String} (h : Written P (.choice c) part (.text name)) :
    c.assemble? name .nothing = some part := by
  cases h with
  | name _ hpart => exact hpart

theorem Written.of_variant {c : Choice} {name : String} {contents : Contents}
    (h : Written P (.choice c) part (Tree.variant name j))
    (hvariant : ⟨name, contents⟩ ∈ c.variants)
    (hshape : contents.shape? = some shape) :
    ∃ inner, Written P shape inner j ∧ c.assemble? name inner = some part := by
  generalize hj : Tree.variant name j = j' at h
  cases h with
  | name => cases hj
  | @variant _ _ _ _ inner _ _ hvariant' hshape' h hpart =>
    cases hj
    cases Choice.contents_unique hvariant hvariant'
    cases hshape.symm.trans hshape'
    exact ⟨inner, h, hpart⟩

/-- A document is written for one part only. -/
theorem Written.unique (h : Written P shape part j) (h' : Written Q shape part' j) :
    part = part' := by
  induction h generalizing part' with
  | number _ => cases h'; rfl
  | text _ => cases h'; rfl
  | flag _ => cases h'; rfl
  | word _ => cases h'; rfl
  | @list item items _ ih =>
    generalize hj : items.map (·.2) = js at h'
    cases h' with
    | @list _ items' h' =>
    congr 1
    refine List.ext_getElem (by simpa using congrArg List.length hj) fun n hn hn' => ?_
    simp only [List.length_map] at hn hn'
    have hjson := List.getElem_of_eq hj (i := n) (by simpa using hn)
    simp only [List.getElem_map] at hjson ⊢
    exact ih _ (List.getElem_mem hn) (hjson ▸ h' _ (List.getElem_mem hn'))
  | @group g fields part hfields _ hpart ih =>
    generalize hj : (fields.map fun f => (f.field.name, f.json)) = js at h'
    cases h' with
    | @group _ fields' _ hfields' h' hpart' =>
    have hparts : fields.map (·.part) = fields'.map (·.part) := by
      refine List.ext_getElem (by simpa using congrArg List.length hj) fun n hn hn' => ?_
      simp only [List.length_map] at hn hn'
      have hjson := List.getElem_of_eq hj (i := n) (by simpa using hn)
      have hfield := List.getElem_of_eq (hfields.trans hfields'.symm) (i := n) (by simpa using hn)
      simp only [List.getElem_map, Prod.mk.injEq] at hjson hfield ⊢
      refine ih _ (List.getElem_mem hn) ?_
      rw [hjson.2, hfield]
      exact h' _ (List.getElem_mem hn')
    rw [hparts, hpart'] at hpart
    exact (Option.some.inj hpart).symm
  | name _ hpart => exact Option.some.inj (hpart.symm.trans h'.of_name)
  | variant hvariant hshape _ hpart ih =>
    obtain ⟨inner', h', hpart'⟩ := h'.of_variant hvariant hshape
    rw [← ih h', hpart] at hpart'
    exact Option.some.inj hpart'

/-- Items of any kind whose documents make up that of a list are what the parts were written as. -/
theorem Written.of_list {α : Type} {items : List α} {json : α → Json} {item : Shape}
    (h : Written P (.list item) part (.list (items.map json))) :
    ∃ value : α → Part, part = .list (items.map value) ∧
      ∀ i ∈ items, Written P item (value i) (json i) := by
  generalize hj : items.map json = js at h
  cases h with
  | @list _ written h =>
  have hvalue : ∀ i ∈ items, ∃ part, Written P item part (json i) := by
    intro i hi
    obtain ⟨w, hw, heq⟩ := List.mem_map.1 (hj ▸ List.mem_map_of_mem hi)
    exact ⟨w.1, heq ▸ h w hw⟩
  choose! value hvalue using hvalue
  refine ⟨value, congrArg Part.list ?_, hvalue⟩
  refine List.ext_getElem (by simpa using (congrArg List.length hj).symm) fun n hn hn' => ?_
  simp only [List.length_map] at hn hn'
  have hjson := List.getElem_of_eq hj (i := n) (by simpa using hn')
  simp only [List.getElem_map] at hjson ⊢
  exact (h _ (List.getElem_mem hn)).unique (hjson ▸ hvalue _ (List.getElem_mem hn'))

/-- A group's part is made of what its fields were written for, which their names tell. -/
theorem Written.of_group {g : Group} {fields : List (Field × Json)}
    (h : Written P (.group g) part (.object (fields.map fun f => (f.1.name, f.2))))
    (hfields : fields.map (·.1) = g.fields) :
    ∃ value : String → Part, g.assemble? (g.fields.map fun f => value f.name) = some part ∧
      ∀ f ∈ fields, Written P f.1.shape (value f.1.name) f.2 := by
  generalize hj : (fields.map fun f => (f.1.name, f.2)) = js at h
  cases h with
  | @group _ filled _ hfilled h hpart =>
  have hnames : (filled.map (·.field.name)).Nodup := by
    simpa [← hfilled, Function.comp_def] using g.fields_nodup
  obtain ⟨value, hvalue⟩ : ∃ value : String → Part, ∀ f ∈ filled, value f.field.name = f.part := by
    refine ⟨fun name => ((filled.find? (·.field.name == name)).map (·.part)).getD .nothing, ?_⟩
    intro f hf
    simp [find?_name hnames hf]
  refine ⟨value, ?_, fun f hf => ?_⟩
  · rw [← hpart, ← hfilled, List.map_map]
    exact congrArg _ (List.map_congr_left hvalue)
  · obtain ⟨n, hn, rfl⟩ := List.getElem_of_mem hf
    have hlength : filled.length = fields.length := by
      simpa using congrArg List.length (hfilled.trans hfields.symm)
    have hjson := List.getElem_of_eq hj (i := n) (by simpa using hn)
    have hfield := List.getElem_of_eq (hfilled.trans hfields.symm) (i := n)
      (by simpa [hlength] using hn)
    simp only [List.getElem_map, Prod.mk.injEq] at hjson hfield
    rw [hjson.2, ← hfield, hvalue _ (List.getElem_mem _)]
    exact h _ (List.getElem_mem _)

end Unique

section Document

variable {P : Float → Prop}

theorem Written.listOf {α : Type} {item : Shape} {part : α → Part} {json : α → Json} {l : List α}
    (h : ∀ a ∈ l, Written P item (part a) (json a)) :
    Written P (.list item) (.list (l.map part)) (.list (l.map json)) := by
  have hpairs : ∀ i ∈ l.map fun a => (part a, json a), Written P item i.1 i.2 := by simpa using h
  have hlist := Written.list hpairs
  simpa [Function.comp_def] using hlist

theorem mapM_part {α : Type} (part : α → Part) (ofPart? : Part → Option α)
    (h : ofPart? ∘ part = some) (l : List α) : (l.map part).mapM ofPart? = some l := by
  rw [List.mapM_map, h]
  simpa using List.mapM_pure (m := Option) (l := l) (f := id)

theorem written_span (s : Span) : Written P (.group .span) (.span s) (spanDocument s) :=
  @Written.group P _ [⟨⟨"start", .word, none⟩, .word s.start, .word s.start⟩,
      ⟨⟨"end", .word, none⟩, .word s.stop, .word s.stop⟩] _
    rfl (by simpa using ⟨.word _, .word _⟩) rfl

theorem written_location (l : Location) :
    Written P (.group .location) (.location l) (locationDocument l) :=
  @Written.group P _ [⟨⟨"span", .group .span, some (.span .none)⟩, .span l.span,
        spanDocument l.span⟩,
      ⟨⟨"line", .word, none⟩, .word l.line, .word l.line⟩,
      ⟨⟨"column", .word, none⟩, .word l.column, .word l.column⟩] _
    rfl (by simpa using ⟨written_span _, .word _, .word _⟩) rfl

theorem written_ident (i : Ident) : Written P (.group .ident) (.ident i) (identDocument i) :=
  @Written.group P _ [⟨⟨"name", .text, none⟩, .text i.name, .text i.name⟩,
      ⟨.location, .location i.location, locationDocument i.location⟩] _
    rfl (by simpa using ⟨.text _, written_location _⟩) rfl

theorem documents_eq (items : List Expr) : documents items = items.map document := by
  induction items with
  | nil => rfl
  | cons e items ih => rw [documents, ih, List.map_cons]

/-- The document of a binding. -/
def bindingDocument (b : Binding) : Json :=
  .object [("name", identDocument b.name), ("value", document b.value)]

theorem bindingDocuments_eq (bindings : List Binding) :
    bindingDocuments bindings = bindings.map bindingDocument := by
  induction bindings with
  | nil => rfl
  | cons b bindings ih =>
    cases b
    rw [bindingDocuments, ih, List.map_cons]
    rfl

theorem written_binding {b : Binding}
    (h : Written P (.group .expr) (.expr b.value) (document b.value)) :
    Written P (.group .binding) (.binding b) (bindingDocument b) :=
  @Written.group P _ [⟨⟨"name", .group .ident, none⟩, .ident b.name, identDocument b.name⟩,
      ⟨.expr "value", .expr b.value, document b.value⟩] _
    rfl (by simpa using ⟨written_ident _, h⟩) (by cases b; rfl)

theorem written_bindings {bindings : List Binding}
    (h : ∀ b ∈ bindings, Written P (.group .expr) (.expr b.value) (document b.value)) :
    Written P (.list (.group .binding)) (.list (bindings.map .binding))
      (.list (bindingDocuments bindings)) := by
  rw [bindingDocuments_eq]
  exact .listOf fun b hb => written_binding (h b hb)

theorem written_exprs {items : List Expr}
    (h : ∀ e ∈ items, Written P (.group .expr) (.expr e) (document e)) :
    Written P (.list (.group .expr)) (.list (items.map .expr)) (.list (documents items)) := by
  rw [documents_eq]
  exact .listOf h

theorem written_params {params : ParamList}
    (h : ∀ d ∈ params.named, Written P (.group .expr) (.expr d.value) (document d.value)) :
    Written P (.group .paramList) (.paramList params) (paramsDocument params) := by
  obtain ⟨positional, named⟩ := params
  rw [paramsDocument]
  refine @Written.group P _ [⟨.listOf "positional" (.group .ident), .list (positional.map .ident),
        .list (positional.map identDocument)⟩,
      ⟨.listOf "named" (.group .binding), .list (named.map .binding),
        .list (bindingDocuments named)⟩] _ rfl ?_ ?_
  · simpa using ⟨.listOf fun i _ => written_ident i, written_bindings h⟩
  · simp only [List.map_cons, List.map_nil, Group.assemble?, mapM_part .ident Part.ident? rfl,
      mapM_part .binding Part.binding? rfl]
    rfl

theorem written_args {args : ArgList}
    (hpositional : ∀ e ∈ args.positional, Written P (.group .expr) (.expr e) (document e))
    (hnamed : ∀ a ∈ args.named, Written P (.group .expr) (.expr a.value) (document a.value)) :
    Written P (.group .argList) (.argList args) (argsDocument args) := by
  obtain ⟨positional, named, location⟩ := args
  rw [argsDocument]
  refine @Written.group P _ [⟨.listOf "positional" (.group .expr), .list (positional.map .expr),
        .list (documents positional)⟩,
      ⟨.listOf "named" (.group .binding), .list (named.map .binding),
        .list (bindingDocuments named)⟩,
      ⟨.location, .location location, locationDocument location⟩] _ rfl ?_ ?_
  · simpa using ⟨written_exprs hpositional, written_bindings hnamed, written_location _⟩
  · simp only [List.map_cons, List.map_nil, Group.assemble?, mapM_part .expr Part.expr? rfl,
      mapM_part .binding Part.binding? rfl]
    rfl

/-- A form of expression that has one thing for contents. -/
theorem Written.of_one (name : String) (shape : Shape) {inner part : Part} {j : Json}
    (hvariant : ⟨name, .one shape⟩ ∈ Choice.kind.variants) (h : Written P shape inner j)
    (hpart : Choice.kind.assemble? name inner = some part) :
    Written P (.choice .kind) part (Tree.variant name j) :=
  .variant hvariant rfl h hpart

/-- A form of expression whose contents are a group, written from these fields. -/
theorem Written.of_fields (name : String) (g : Group) (fields : List Filled) {inner part : Part}
    (hvariant : ⟨name, .group g⟩ ∈ Choice.kind.variants)
    (hfields : fields.map (·.field) = g.fields)
    (h : ∀ f ∈ fields, Written P f.field.shape f.part f.json)
    (hinner : g.assemble? (fields.map (·.part)) = some inner)
    (hpart : Choice.kind.assemble? name inner = some part) :
    Written P (.choice .kind) part
      (Tree.variant name (.object (fields.map fun f => (f.field.name, f.json)))) :=
  .variant hvariant rfl (.group hfields h hinner) hpart

/-- An expression of any form has been written if its parts have. -/
theorem written_kind {kind : ExprKind}
    (hparts : ∀ b part, (b, part) ∈ kind.parts →
      Written P (.group .expr) (.expr part) (document part))
    (hnumber : ∀ x, kind = .number x → P x) :
    Written P (.choice .kind) (.kind kind) (kindDocument kind) := by
  cases kind with
  | number x =>
    exact .of_one "Number" .number (by decide) (.number (hnumber x rfl)) rfl
  | text s => exact .of_one "String" .text (by decide) (.text s) rfl
  | truth b => exact .of_one "Bool" .flag (by decide) (.flag b) rfl
  | var name => exact .of_one "Var" .text (by decide) (.text name) rfl
  | record members =>
    refine .of_one "Record" (.list (.group .binding)) (by decide)
      (written_bindings fun m hm => hparts _ _ (List.mem_map_of_mem hm)) ?_
    simp only [Choice.assemble?, mapM_part .binding Part.binding? rfl]
    rfl
  | array items =>
    refine .of_one "Array" (.list (.group .expr)) (by decide)
      (written_exprs fun e he => hparts none e (List.mem_map_of_mem he)) ?_
    simp only [Choice.assemble?, mapM_part .expr Part.expr? rfl]
    rfl
  | new typeName fields =>
    refine .of_fields "New" .new
      [⟨⟨"type_name", .group .ident, none⟩, .ident typeName, identDocument typeName⟩,
        ⟨.expr "fields", .expr fields, document fields⟩]
      (by decide) rfl ?_ rfl rfl
    simpa using ⟨written_ident typeName, hparts none fields (by simp [ExprKind.parts])⟩
  | conditional c t e =>
    refine .of_fields "If" .conditional
      [⟨.expr "condition", .expr c, document c⟩,
        ⟨.expr "then_branch", .expr t, document t⟩,
        ⟨.expr "else_branch", .expr e, document e⟩]
      (by decide) rfl ?_ rfl rfl
    simpa using ⟨hparts none c (by simp [ExprKind.parts]), hparts none t (by simp [ExprKind.parts]),
      hparts none e (by simp [ExprKind.parts])⟩
  | lambda params body =>
    refine .of_fields "Lambda" .lambda
      [⟨⟨"params", .group .paramList, none⟩, .paramList params, paramsDocument params⟩,
        ⟨.expr "body", .expr body, document body⟩]
      (by decide) rfl ?_ rfl rfl
    have hnamed := @written_params P params fun d hd => hparts none d.value
      (List.mem_cons_of_mem _ (List.mem_map_of_mem hd))
    simpa using ⟨hnamed, hparts _ body List.mem_cons_self⟩
  | apply func args =>
    refine .of_fields "Apply" .apply
      [⟨.expr "func", .expr func, document func⟩,
        ⟨⟨"args", .group .argList, none⟩, .argList args, argsDocument args⟩]
      (by decide) rfl ?_ rfl rfl
    have hargs := @written_args P args
      (fun e he => hparts none e (by simp [ExprKind.parts, he]))
      (fun a ha => hparts none a.value (List.mem_append_right _ (List.mem_map_of_mem ha)))
    simpa using ⟨hparts none func List.mem_cons_self, hargs⟩
  | member base name =>
    refine .of_fields "Member" .member
      [⟨.expr "base", .expr base, document base⟩,
        ⟨⟨"member", .group .ident, none⟩, .ident name, identDocument name⟩]
      (by decide) rfl ?_ rfl rfl
    simpa using ⟨hparts none base (by simp [ExprKind.parts]), written_ident name⟩
  | comprehension first last init =>
    refine .of_fields "ArrayComprehension" .comprehension
      [⟨.expr "first", .expr first, document first⟩,
        ⟨.expr "last", .expr last, document last⟩,
        ⟨.expr "init", .expr init, document init⟩]
      (by decide) rfl ?_ rfl rfl
    simpa using ⟨hparts none first (by simp [ExprKind.parts]),
      hparts none last (by simp [ExprKind.parts]), hparts none init (by simp [ExprKind.parts])⟩
  | index base i =>
    refine .of_fields "Index" .index
      [⟨.expr "base", .expr base, document base⟩,
        ⟨.expr "index", .expr i, document i⟩]
      (by decide) rfl ?_ rfl rfl
    simpa using ⟨hparts none base (by simp [ExprKind.parts]),
      hparts none i (by simp [ExprKind.parts])⟩
  | unary op operand =>
    have hop : Written P (.choice .unaryOp) (.unaryOp op) (.text op.name) := by
      cases op <;> exact .name (by decide) rfl
    refine .of_fields "Unary" .unary
      [⟨⟨"op", .choice .unaryOp, none⟩, .unaryOp op, .text op.name⟩,
        ⟨.expr "operand", .expr operand, document operand⟩]
      (by decide) rfl ?_ rfl rfl
    simpa using ⟨hop, hparts none operand (by simp [ExprKind.parts])⟩
  | binary op left right =>
    have hop : Written P (.choice .binaryOp) (.binaryOp op) (.text op.name) := by
      cases op <;> exact .name (by decide) rfl
    refine .of_fields "Binary" .binary
      [⟨⟨"op", .choice .binaryOp, none⟩, .binaryOp op, .text op.name⟩,
        ⟨.expr "left", .expr left, document left⟩,
        ⟨.expr "right", .expr right, document right⟩]
      (by decide) rfl ?_ rfl rfl
    simpa using ⟨hop, hparts none left (by simp [ExprKind.parts]),
      hparts none right (by simp [ExprKind.parts])⟩

/-- A tree is written as its document. -/
theorem written_document (e : Expr) (h : ∀ x, e.HasNumber x → P x) :
    Written P (.group .expr) (.expr e) (document e) := by
  induction e using Expr.parts_induction with
  | h e ih =>
    obtain ⟨kind, location⟩ := e
    have hparts (b : Option Binder) (part : Expr) (hpart : (b, part) ∈ kind.parts) :
        Written P (.group .expr) (.expr part) (document part) :=
      ih b part hpart fun x hx => h x (hx.of_part hpart)
    have hkind := written_kind hparts fun x hx => h x ⟨[], location, hx ▸ .root⟩
    exact @Written.group P _ [⟨⟨"kind", .choice .kind, none⟩, .kind kind, kindDocument kind⟩,
      ⟨.location, .location location, locationDocument location⟩] _
      rfl (by simpa using ⟨hkind, written_location location⟩) rfl

end Document

end Tree

end NetDesc
