import NetDesc.Proofs.Matching.Run

namespace NetDesc

section Monotone

variable {expr expr' : Expr → Expr → Prop} {location : Location → Location → Prop}
  (h : ∀ e e', expr e e' → expr' e e')

include h

theorem Binding.forall₂_mono {bs cs : List Binding}
    (hbs : List.Forall₂ (Varies expr location) bs cs) :
    List.Forall₂ (Varies expr' location) bs cs :=
  hbs.imp fun _ _ hb => { hb with value := h _ _ hb.value }

theorem ExprKind.Varies.mono {k k' : ExprKind} (hk : k.Varies expr location k') :
    k.Varies expr' location k' := by
  cases hk with
  | number x => exact .number x
  | text s => exact .text s
  | truth b => exact .truth b
  | new ht he => exact .new ht (h _ _ he)
  | conditional hc ht he => exact .conditional (h _ _ hc) (h _ _ ht) (h _ _ he)
  | lambda hp he =>
    exact .lambda { hp with named := Binding.forall₂_mono h hp.named } (h _ _ he)
  | apply hf ha =>
    exact .apply (h _ _ hf) { ha with
      positional := ha.positional.imp h
      named := Binding.forall₂_mono h ha.named }
  | record hbs => exact .record (Binding.forall₂_mono h hbs)
  | var name => exact .var name
  | member he hm => exact .member (h _ _ he) hm
  | array hes => exact .array (hes.imp h)
  | comprehension ha hb hc => exact .comprehension (h _ _ ha) (h _ _ hb) (h _ _ hc)
  | index ha hb => exact .index (h _ _ ha) (h _ _ hb)
  | unary op ha => exact .unary op (h _ _ ha)
  | binary op ha hb => exact .binary op (h _ _ ha) (h _ _ hb)

theorem ExprKind.Rearranges.mono {ordered : Prop} {k k' : ExprKind}
    (hk : k.Rearranges expr ordered k') : k.Rearranges expr' ordered k' := by
  cases hk with
  | same hk => exact .same (hk.mono h)
  | record hfree hparts horder hnames =>
    exact .record hfree (Binding.forall₂_mono h hparts) horder hnames

end Monotone

/-- Related expressions stand at the same place and are of the same form, with related parts, except
    that bindings of record literals with distinct names may come in any order. -/
structure Expr.Reorders (expr : Expr → Expr → Prop) : Prop where
  location : ∀ {e e' : Expr}, expr e e' → e.location = e'.location
  kind : ∀ {e e' : Expr}, expr e e' → e.kind.Rearranges expr False e'.kind

/-- The trees differ only in the order of the bindings of record literals that have distinct names,
    anywhere in the tree. -/
def Expr.Reordered (e e' : Expr) : Prop :=
  ∃ expr, Reorders expr ∧ expr e e'

/-- Trees are reordered part by part. -/
theorem Expr.Reordered.of_kind {k k' : ExprKind} (h : k.Rearranges Reordered False k')
    (location : Location) : Reordered (.mk k location) (.mk k' location) := by
  refine ⟨fun e e' => e.location = e'.location ∧ e.kind.Rearranges Reordered False e'.kind, ?_,
    rfl, h⟩
  have hinside (e e' : Expr) (hee' : e.Reordered e') :
      e.location = e'.location ∧ e.kind.Rearranges Reordered False e'.kind := by
    obtain ⟨expr, hexpr, hrelated⟩ := hee'
    exact ⟨hexpr.location hrelated, (hexpr.kind hrelated).mono fun _ _ h => ⟨expr, hexpr, h⟩⟩
  exact {
    location := And.left
    kind := fun hrelated => hrelated.2.mono hinside }

theorem Expr.Reordered.refl (e : Expr) : e.Reordered e :=
  ⟨Eq, {
    location := congrArg Expr.location
    kind := by
      rintro e _ rfl
      exact .same (.refl (fun _ => rfl) (fun _ => rfl) e.kind) }, rfl⟩

/-- Trees may differ in the order of declarations. -/
def Comparison.reordering {expr : Expr → Expr → Prop} (h : Expr.Reorders expr) : Comparison where
  expr := expr
  ordered := False
  before := #[]
  expr_location := h.location
  expr_kind := h.kind

namespace Evaluator

/-- Without runtime types the order of declarations is irrelevant. Members of a record see one
    another whatever their order, so the members of both trees have the same values or fail with
    the same errors. -/
theorem evaluateMember_reordered {ev : Evaluator} (hev : ev.registry.types = [])
    {root root' : Expr} (hroot : root.Reordered root') (fuel : Nat) (name : String) (s : Store) :
    (ev.evaluateMember fuel root name s).EndsSame (ev.evaluateMember fuel root' name s) := by
  obtain ⟨expr, hexpr, hroot⟩ := hroot
  have hregistry : ev.registry.Corresponds (.reordering hexpr) := by
    intro entry hentry
    simp [hev] at hentry
  have hmember := evaluateMember_corresponds (K := .reordering hexpr) hregistry hroot fuel name
    (s := s) (t := s) (by simp [Comparison.reordering])
  exact hmember.endsSame rfl

/-- A member that is found in another one, where it stands for a third. -/
def inwardExpr (outer inner : List Binding → List Binding) : Expr :=
  .ofMembers (outer
    [.ofName "x" (.dot (.ofName "r") "a"),
      .ofName "r" (.ofMembers (inner [.ofName "a" (.ofName "b"), .ofName "b" (.ofText "t")]))])

/-- Declarations may come after what refers to them, or before. -/
theorem evaluateMember_reordered_inward :
    (inwardExpr id id).Reordered (inwardExpr List.reverse List.reverse) ∧
      (({ registry := {} } : Evaluator).evaluateMember 20 (inwardExpr id id) "x" {}).EndsSame
        (({ registry := {} } : Evaluator).evaluateMember 20
          (inwardExpr List.reverse List.reverse) "x" {}) := by
  have hbinding (name : String) {e e' : Expr} (h : e.Reordered e') :
      (Binding.ofName name e).Varies Expr.Reordered Eq (.ofName name e') :=
    ⟨⟨rfl, rfl⟩, h⟩
  have hinner : (Expr.ofMembers [.ofName "a" (.ofName "b"), .ofName "b" (.ofText "t")]).Reordered
      (.ofMembers [.ofName "b" (.ofText "t"), .ofName "a" (.ofName "b")]) :=
    .of_kind (.record id (.cons (hbinding "a" (.refl _)) (.cons (hbinding "b" (.refl _)) .nil))
      (.swap ..) (by decide)) _
  have houter : (inwardExpr id id).Reordered (inwardExpr List.reverse List.reverse) :=
    .of_kind (.record id (.cons (hbinding "x" (.refl _)) (.cons (hbinding "r" hinner) .nil))
      (.swap ..) (by decide)) _
  exact ⟨houter, evaluateMember_reordered rfl houter 20 "x" {}⟩

end Evaluator

end NetDesc
