import NetDesc.Expr.Build
import NetDesc.Proofs.Lockstep.Pairing
import NetDesc.Proofs.Variation.Run

namespace NetDesc

def Binding.mapValue (f : Expr → Expr) (b : Binding) : Binding :=
  .mk b.name (f b.value)

/-- Changes the expressions that an expression of this form consists of. They are counted from zero
    in the order in which they are written, defaults before the body of a function. -/
def ExprKind.mapParts (f : Nat → Expr → Expr) : ExprKind → ExprKind
  | .number x => .number x
  | .text s => .text s
  | .truth b => .truth b
  | .new t e => .new t (f 0 e)
  | .conditional c t e => .conditional (f 0 c) (f 1 t) (f 2 e)
  | .lambda (.mk positional named) body =>
    .lambda (.mk positional (named.mapIdx fun i b => b.mapValue (f i))) (f named.length body)
  | .apply func (.mk positional named location) =>
    .apply (f 0 func)
      (.mk (positional.mapIdx fun i => f (i + 1))
        (named.mapIdx fun i b => b.mapValue (f (positional.length + i + 1))) location)
  | .record bs => .record (bs.mapIdx fun i b => b.mapValue (f i))
  | .var name => .var name
  | .member e m => .member (f 0 e) m
  | .array es => .array (es.mapIdx f)
  | .comprehension a b c => .comprehension (f 0 a) (f 1 b) (f 2 c)
  | .index a b => .index (f 0 a) (f 1 b)
  | .unary op a => .unary op (f 0 a)
  | .binary op a b => .binary op (f 0 a) (f 1 b)

namespace Expr

/-- Changes the sub-expression at a position, which leads to it part by part. Where the tree has no
    such position it stays as it is. -/
def modifyAt (f : Expr → Expr) : List Nat → Expr → Expr
  | [], e => f e
  | i :: rest, .mk kind location =>
    .mk (kind.mapParts fun j e => if j = i then modifyAt f rest e else e) location

/-- Puts another expression in the place of the one at a position. -/
def replaceAt (root : Expr) (position : List Nat) (e : Expr) : Expr :=
  root.modifyAt (fun _ => e) position

/-- Gives the sub-expression at a position another location. To see whether a run evaluates it,
    it is put at a location of its own: the run does if it enters that location, or refuses to. -/
def relocateAt (root : Expr) (position : List Nat) (location : Location) : Expr :=
  root.modifyAt (·.located location) position

end Expr

theorem forall₂_mapIdx {α β : Type} {R : β → β → Prop} {f g : Nat → α → β} (xs : List α)
    (h : ∀ i x, R (f i x) (g i x)) : List.Forall₂ R (xs.mapIdx f) (xs.mapIdx g) := by
  induction xs generalizing f g with
  | nil => exact .nil
  | cons x rest ih =>
    rw [List.mapIdx_cons, List.mapIdx_cons]
    exact .cons (h 0 x) (ih fun i => h (i + 1))

theorem mapIdx_const_id {α : Type} (xs : List α) : xs.mapIdx (fun _ x => x) = xs := by
  induction xs with
  | nil => rfl
  | cons x rest ih => rw [List.mapIdx_cons, ih]

namespace ExprKind

theorem mapParts_id (k : ExprKind) : k.mapParts (fun _ e => e) = k := by
  have hbindings (bs : List Binding) : bs.mapIdx (fun _ b => b.mapValue fun e => e) = bs := by
    have hsame (b : Binding) : b.mapValue (fun e => e) = b := by cases b; rfl
    simp only [hsame, mapIdx_const_id]
  cases k with
  | lambda params body =>
    obtain ⟨positional, named⟩ := params
    simp only [mapParts, hbindings]
  | apply func args =>
    obtain ⟨positional, named, location⟩ := args
    simp only [mapParts, hbindings, mapIdx_const_id]
  | record bs => simp only [mapParts, hbindings]
  | array es => simp only [mapParts, mapIdx_const_id]
  | _ => rfl

/-- Changing the parts in two ways that are related gives forms that are. -/
theorem mapParts_varies {expr : Expr → Expr → Prop} {location : Location → Location → Prop}
    (hlocation : ∀ l, location l l) {f g : Nat → Expr → Expr}
    (h : ∀ i e, expr (f i e) (g i e)) (k : ExprKind) :
    (k.mapParts f).Varies expr location (k.mapParts g) := by
  have hident (i : Ident) : i.Varies location i := ⟨rfl, hlocation _⟩
  have hbindings (bs : List Binding) (n : Nat → Nat) :
      List.Forall₂ (Binding.Varies expr location) (bs.mapIdx fun i b => b.mapValue (f (n i)))
        (bs.mapIdx fun i b => b.mapValue (g (n i))) :=
    forall₂_mapIdx bs fun i b => ⟨hident b.name, h (n i) b.value⟩
  cases k with
  | number x => exact .number x
  | text s => exact .text s
  | truth b => exact .truth b
  | new t e => exact .new (hident t) (h 0 e)
  | conditional c t e => exact .conditional (h 0 c) (h 1 t) (h 2 e)
  | lambda params body =>
    obtain ⟨positional, named⟩ := params
    exact .lambda ⟨rfl, hbindings named fun i => i⟩ (h named.length body)
  | apply func args =>
    obtain ⟨positional, named, l⟩ := args
    exact .apply (h 0 func) ⟨forall₂_mapIdx positional fun i => h (i + 1),
      hbindings named fun i => positional.length + i + 1, hlocation l⟩
  | record bs => exact .record (hbindings bs fun i => i)
  | var name => exact .var name
  | member e m => exact .member (h 0 e) (hident m)
  | array es => exact .array (forall₂_mapIdx es h)
  | comprehension a b c => exact .comprehension (h 0 a) (h 1 b) (h 2 c)
  | index a b => exact .index (h 0 a) (h 1 b)
  | unary op a => exact .unary op (h 0 a)
  | binary op a b => exact .binary op (h 0 a) (h 1 b)

theorem Varies.refl {expr : Expr → Expr → Prop} {location : Location → Location → Prop}
    (hexpr : ∀ e, expr e e) (hlocation : ∀ l, location l l) (k : ExprKind) :
    k.Varies expr location k := by
  have hparts := k.mapParts_varies hlocation (f := fun _ e => e) (g := fun _ e => e)
    fun _ => hexpr
  rwa [mapParts_id] at hparts

end ExprKind

namespace Expr

theorem modifyAt_id (position : List Nat) (e : Expr) : e.modifyAt (fun e => e) position = e := by
  induction position generalizing e with
  | nil => rfl
  | cons i rest ih =>
    obtain ⟨kind, location⟩ := e
    simp only [modifyAt, ih, ite_self, ExprKind.mapParts_id]

/-- The expressions are equal but for what stands at one position, which is at the location `mark`
    in the first one. -/
def AgreesBut (mark : Location) (e e' : Expr) : Prop :=
  e = e' ∨ ∃ (root : Expr) (position : List Nat) (f : Expr → Expr),
    e = root.relocateAt position mark ∧ e' = root.modifyAt f position

namespace AgreesBut

variable {mark : Location} {e e' : Expr}

theorem refl (e : Expr) : AgreesBut mark e e :=
  .inl rfl

theorem relocateAt (root : Expr) (position : List Nat) (f : Expr → Expr) :
    AgreesBut mark (root.relocateAt position mark) (root.modifyAt f position) :=
  .inr ⟨root, position, f, rfl, rfl⟩

/-- The position is further inside, unless it is this expression itself. -/
theorem exists_parts (h : AgreesBut mark e e') (hmark : e.location ≠ mark) :
    ∃ (kind : ExprKind) (f g : Nat → Expr → Expr),
      (∀ i part, AgreesBut mark (f i part) (g i part)) ∧
        e = .mk (kind.mapParts f) e.location ∧ e' = .mk (kind.mapParts g) e.location := by
  obtain rfl | ⟨root, position, f, rfl, rfl⟩ := h
  · refine ⟨e.kind, fun _ part => part, fun _ part => part, fun _ => refl, ?_⟩
    rw [ExprKind.mapParts_id]
    cases e
    exact ⟨rfl, rfl⟩
  · cases position with
    | nil => exact absurd rfl hmark
    | cons i rest =>
      obtain ⟨kind, location⟩ := root
      refine ⟨kind, _, _, fun j part => ?_, rfl, rfl⟩
      by_cases hj : j = i
      · simp only [hj, if_true]
        exact relocateAt part rest f
      · simp only [hj, if_false]
        exact refl part

theorem kind_varies (h : AgreesBut mark e e') (hmark : e.location ≠ mark) :
    e.kind.Varies (AgreesBut mark) Eq e'.kind := by
  obtain ⟨kind, f, g, hparts, heq, heq'⟩ := h.exists_parts hmark
  rw [heq, heq']
  exact kind.mapParts_varies (fun _ => rfl) hparts

theorem location_eq (h : AgreesBut mark e e') (hmark : e.location ≠ mark) :
    e.location = e'.location := by
  obtain ⟨kind, f, g, -, -, heq'⟩ := h.exists_parts hmark
  rw [heq']
  rfl

end AgreesBut

end Expr

/-- Everything is the same, but for what stands for expressions at the location `mark`. -/
def Variation.but (mark : Location) : Variation where
  expr := Expr.AgreesBut mark
  location := Eq
  place _ _ := True
  error := Eq
  idle location := location = mark
  unknown := rfl
  orElse := by
    rintro l l' k k' rfl rfl
    rfl
  place_of_location _ := trivial
  expr_kind := Expr.AgreesBut.kind_varies
  expr_location := Expr.AgreesBut.location_eq
  expr_place _ := trivial
  raised := by
    rintro cause l l' rfl
    rfl
  through := by
    rintro e e' l l' rfl rfl
    rfl

theorem Value.Varies.same {mark : Location} {v w : Value} (h : v.Varies (.but mark) w) :
    v.Same w where
  typeName := h.typeName_eq
  location := h.location
  path := h.path
  scalar hs := by
    obtain ⟨x, l, path⟩ := v
    obtain ⟨y, l', path'⟩ := w
    cases h.payload with
    | number | text | truth => rfl
    | _ => exact (hs.elim id id).elim

namespace Outcome

/-- The runs have printed the same. They give values that one cannot tell apart without looking into
    any place, or fail with the same error, or are both given up. -/
def EndsSame : Outcome Value → Outcome Value → Prop
  | value v s, value w t => v.Same w ∧ s.printed = t.printed
  | error e s, error f t => e = f ∧ s.printed = t.printed
  | exhausted, exhausted => True
  | _, _ => False

/-- Runs that vary with the same run end the same. -/
theorem endsSame_of_varies {mark : Location} {o o' o'' : Outcome Value}
    (h' : o.Varies (.but mark) (Value.Varies (.but mark)) o')
    (h'' : o.Varies (.but mark) (Value.Varies (.but mark)) o'') : o'.EndsSame o'' := by
  cases h' with
  | value hv hs =>
    cases h'' with
    | value hw ht => exact ⟨hv.same.symm.trans hw.same, hs.printed.symm.trans ht.printed⟩
  | error he hs =>
    cases h'' with
    | error hf ht => exact ⟨Eq.trans (Eq.symm he) hf, hs.printed.symm.trans ht.printed⟩
  | exhausted =>
    cases h''
    trivial

end Outcome

namespace Evaluator

/-- If a sub-expression, put at the location `mark`, is not evaluated while a member is, then it may
    as well be any other expression. -/
theorem evaluateMember_ignores_unevaluated {ev : Evaluator} (hev : ev.registry = .standard)
    (root : Expr) (position : List Nat) {mark : Location} (name : String) (fuel : Nat) (s : Store)
    (hunevaluated : ∀ event ∈ ev.memberHistory fuel (root.relocateAt position mark) name s,
      ¬event.Evaluates mark) (e : Expr) :
    (ev.evaluateMember fuel root name s).EndsSame
      (ev.evaluateMember fuel (root.replaceAt position e) name s) := by
  have hplaceless : ev.registry.Placeless := hev ▸ Registry.standard_placeless
  have hstore : s.Varies (.but mark) s := .refl Expr.AgreesBut.refl (fun _ => rfl) s
  have hquiet : (Variation.but mark).Quiet
      (ev.memberHistory fuel (root.relocateAt position mark) name s) := by
    rintro event hevent location rfl
    exact hunevaluated event hevent
  have hmodified (f : Expr → Expr) :=
    evaluateMember_varies (hplaceless _) (Expr.AgreesBut.relocateAt root position f) fuel name
      hstore hquiet
  have hroot := hmodified fun e => e
  rw [Expr.modifyAt_id] at hroot
  exact Outcome.endsSame_of_varies hroot (hmodified fun _ => e)

/-- A tree whose member is one of two texts, depending on `condition`. -/
def choiceExpr (condition : Bool) (thenBranch elseBranch : Expr) : Expr :=
  .ofMembers [.ofName "x" (.ifThenElse (.ofTruth condition) thenBranch elseBranch)]

/-- The branch that is not taken may be one that would fail. -/
theorem evaluateMember_ignores_unevaluated_branch :
    (∀ event ∈ ({} : Evaluator).memberHistory 10
        ((choiceExpr true (.ofText "a") (.ofText "b")).relocateAt [0, 2] (.ofLine 1 1)) "x" {},
      ¬event.Evaluates (.ofLine 1 1)) ∧
      (({} : Evaluator).evaluateMember 10 (choiceExpr true (.ofText "a") (.ofText "b")) "x"
          {}).EndsSame
        (({} : Evaluator).evaluateMember 10 (choiceExpr true (.ofText "a") (.ofName "y")) "x"
          {}) := by
  have hunevaluated : ∀ event ∈ ({} : Evaluator).memberHistory 10
      ((choiceExpr true (.ofText "a") (.ofText "b")).relocateAt [0, 2] (.ofLine 1 1)) "x" {},
      ¬event.Evaluates (.ofLine 1 1) := by
    decide +kernel
  exact ⟨hunevaluated, evaluateMember_ignores_unevaluated rfl
    (choiceExpr true (.ofText "a") (.ofText "b")) [0, 2] "x" 10 {} hunevaluated (.ofName "y")⟩

end Evaluator

end NetDesc
