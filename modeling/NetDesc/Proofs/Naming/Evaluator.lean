import NetDesc.Proofs.Naming.Parts
import NetDesc.Proofs.Operators.Dispatch

namespace NetDesc

variable {begun : List Computation} {carryOut : (c : Call) → Store → Outcome c.Reply}
  {inside : Call → Store → List Computation} {w u : World} {tier : Tier} {path : String} {v : Value}

namespace Value.Given

theorem of_fits (hv : v.Fits u tier) (hlater : w.Later begun tier (within path) u) :
    v.Given begun w tier path u where
  fits := .inl hv
  unnamed _ := hlater

theorem of_plain (hv : v.Fits u tier ∨ path = "") (h : ¬v.HasMembers) :
    v.Given begun w tier path u where
  fits := hv.imp_right fun hpath => ⟨hpath, h⟩
  unnamed hmembers := absurd hmembers h

/-- What is given later on was given from the start. -/
theorem after {x : World} (hv : v.Given begun u tier path x)
    (hlater : w.Later begun tier (within path) u) : v.Given begun w tier path x where
  fits := hv.fits
  unnamed h := hlater.trans (hv.unnamed h)

/-- Values that have members can be seen. -/
theorem members_fit (hv : v.Given begun w tier path u) (h : v.HasMembers) : v.Fits u tier :=
  hv.fits.resolve_right fun hpath => hpath.2 h

end Value.Given

theorem Value.hasMembers_of_asRecord {id : RecordId} (h : v.asRecord = .ok id) : v.HasMembers := by
  obtain ⟨payload, location, path⟩ := v
  cases payload <;> cases h
  trivial

namespace Program.Upholds

theorem given {p : Program Value} (hp : p.Upholds begun carryOut inside w tier (within path)
    fun u v => v.Fits u tier) :
    p.Upholds begun carryOut inside w tier (region path) fun u v => v.Given begun w tier path u :=
  hp.imp (within_subset path) fun _ _ _ hlater hv => .of_fits hv hlater

theorem given_plain {p : Program Value} (hp : p.Upholds begun carryOut inside w tier (region path)
    fun u v => (v.Fits u tier ∨ path = "") ∧ ¬v.HasMembers) :
    p.Upholds begun carryOut inside w tier (region path) fun u v => v.Given begun w tier path u :=
  hp.imp subset_rfl fun _ _ _ _ hv => .of_plain hv.1 hv.2

end Program.Upholds

namespace Operator

theorem orInvalid_upholds (site : Site) (left right : Value) {result : Option Value}
    (hresult : ∀ v, result = some v → v.Fits w tier ∧ ¬v.HasMembers) :
    (orInvalid site left right result).Upholds begun carryOut inside w tier ∅ fun u v =>
      v.Fits u tier ∧ ¬v.HasMembers := by
  cases result with
  | none => exact .raise _
  | some v => exact .pure (hresult v rfl)

/-- Operators compute scalars, which refer to nothing. -/
theorem onNumbers?_fits {site : Site} {x y : Float} (hv : onNumbers? site x y = some v) :
    v.Fits w tier ∧ ¬v.HasMembers := by
  simp only [onNumbers?, Option.orElse_eq_orElse, Option.orElse_eq_or, Option.or_eq_some_iff,
    Option.map_eq_some_iff] at hv
  rcases hv with ⟨z, -, rfl⟩ | ⟨-, z, -, rfl⟩ <;> exact ⟨trivial, fun h => h.elim⟩

theorem onTexts?_fits {site : Site} {x y : String} (hv : onTexts? site x y = some v) :
    v.Fits w tier ∧ ¬v.HasMembers := by
  unfold onTexts? at hv
  split at hv
  · cases hv
    exact ⟨trivial, fun h => h.elim⟩
  · obtain ⟨z, -, rfl⟩ := Option.map_eq_some_iff.1 hv
    exact ⟨trivial, fun h => h.elim⟩

theorem onTruths?_fits {site : Site} {a b : Bool} (hv : onTruths? site a b = some v) :
    v.Fits w tier ∧ ¬v.HasMembers := by
  obtain ⟨z, -, rfl⟩ := Option.map_eq_some_iff.1 hv
  exact ⟨trivial, fun h => h.elim⟩

variable (site : Site) {left right : Value} (hleft : left.Fits w tier)
  (hright : right.Fits w tier)

include hleft hright

theorem graphFields_upholds (className : String) :
    (graphFields site className left right).Upholds begun carryOut inside w tier ∅ fun u fields =>
      Tier.Reaches (u.record fields) tier := by
  have hparent : ∀ p, none = some p → Tier.Reaches (w.record p) tier := by
    rintro p ⟨⟩
  refine .bind_still (Program.newRecord_upholds hparent) fun w₁ fields _ h₁ hfields => ?_
  refine .bind_still (Program.addValue_upholds hfields "class" (v := site.textValue className)
    trivial) fun w₂ _ _ h₂ _ => ?_
  have hw₂ := h₁.trans h₂
  refine .bind_still (Program.ready_upholds (hleft.mono hw₂.toExtends)) ?_
  rintro w₃ first - h₃ hfirst
  have hw₃ := hw₂.trans h₃
  refine .bind_still (Program.ready_upholds (hright.mono hw₃.toExtends)) ?_
  rintro w₄ second - h₄ hsecond
  have hinputs : ∀ c ∈ #[first, second], Tier.Reaches (w₄.cell c) tier := by
    intro c hc
    obtain rfl | rfl : c = first ∨ c = second := by simpa using hc
    · exact h₄.reaches_cell hfirst
    · exact hsecond
  have hkept := h₄.record fields tier (h₃.record fields tier (h₂.record fields tier hfields))
  refine .bind_still (Program.addValue_upholds hkept "inputs" (v := .array _ _ _) hinputs) ?_
  exact fun w₅ _ _ h₅ _ => .pure ⟨tier, h₅.record fields tier hkept, List.suffix_refl tier⟩

variable (hcalls : CallsUphold begun carryOut inside) (hfree : World.Free begun w tier site.path)

include hcalls hfree

/-- An operator on objects makes a node that is named after the place of the operator. -/
theorem onObjects_upholds :
    (onObjects .standard site left right).Upholds begun carryOut inside w tier {site.path}
      fun u v => (v.Fits u tier ∨ site.path = "") ∧ ¬v.HasMembers := by
  refine onObjects_elim (P := (·.Upholds begun carryOut inside w tier {site.path} fun u v =>
    (v.Fits u tier ∨ site.path = "") ∧ ¬v.HasMembers)) ?_ fun _ _ => .raise _
  intro className first second hboth
  obtain ⟨hfirst, hsecond⟩ := hboth (·.Fits w tier) hleft hright
  refine .bind_still (graphFields_upholds site hfirst hsecond className) ?_
  intro u fields _ hlater hfields
  exact .check fun t ht => Registry.standard_instantiate_upholds hcalls ht hfields _
    (Registry.standard_isRecordLike ht).1 (hlater.free hfree (Set.notMem_empty _))

theorem apply_upholds :
    (apply .standard site left right).Upholds begun carryOut inside w tier {site.path}
      fun u v => (v.Fits u tier ∨ site.path = "") ∧ ¬v.HasMembers := by
  have hscalar {result : Option Value}
      (hresult : ∀ v, result = some v → v.Fits w tier ∧ ¬v.HasMembers) :
      (orInvalid site left right result).Upholds begun carryOut inside w tier {site.path}
        fun u v => (v.Fits u tier ∨ site.path = "") ∧ ¬v.HasMembers :=
    (orInvalid_upholds site left right hresult).imp (Set.empty_subset _) fun _ _ _ _ hv =>
      ⟨.inl hv.1, hv.2⟩
  refine apply_elim (P := (·.Upholds begun carryOut inside w tier {site.path} fun u v =>
    (v.Fits u tier ∨ site.path = "") ∧ ¬v.HasMembers)) ?numbers ?texts ?truths ?objects
      (.raise _)
  case numbers => exact fun _ _ => hscalar fun v hv => onNumbers?_fits hv
  case texts => exact fun _ _ => hscalar fun v hv => onTexts?_fits hv
  case truths => exact fun _ _ => hscalar fun v hv => onTruths?_fits hv
  case objects => exact onObjects_upholds site hleft hright hcalls hfree

end Operator

section Arguments

variable {func : Expr} {args : ArgList} {location : Location}
  (he : Expr.WellNamed (.mk (.apply func args) location))

include he

theorem Expr.WellNamed.positional {params : List String} (hparams : ∀ p ∈ params, IsIdentifier p) :
    ∀ a ∈ args.positional.zip params, a.1.WellNamed ∧ IsIdentifier a.2 := by
  intro a ha
  obtain ⟨harg, hparam⟩ := List.of_mem_zip ha
  refine ⟨he.part (b := none) ?_, hparams a.2 hparam⟩
  exact List.mem_append_left _ (List.mem_cons_of_mem _ (List.mem_map_of_mem harg))

theorem Expr.WellNamed.named :
    ∀ a ∈ args.named, IsIdentifier a.name.name ∧ a.value.WellNamed := fun a ha =>
  ⟨he.kind a ha, he.part (List.mem_append_right _ (List.mem_map_of_mem ha))⟩

end Arguments

namespace Evaluator

section Parts

variable (hcalls : CallsUphold begun carryOut inside) {scope : RecordId}
  (hscope : Tier.Reaches (w.record scope) tier) {whole : Expr}
  (hclear : w.Clear begun tier whole scope path)

include hcalls hscope hclear

theorem evaluateApply_upholds {func : Expr} {args : ArgList} {location : Location}
    (he : Expr.WellNamed (.mk (.apply func args) location))
    (hbegun : Begins begun (.evaluate (.mk (.apply func args) location) scope path)) :
    (evaluateApply func args scope path location).Upholds begun carryOut inside w tier (within path)
      fun u v => v.Fits u tier := by
  have hlambda : PartId "_lambda" := partId_fixed (by decide)
  have hfunc := he.part (List.mem_cons_self : (none, func) ∈ _)
  refine .bind (Program.evaluatePart_recorded hcalls hfunc hscope hlambda.ne_empty
    (hclear.part hlambda)) hlambda.region_within ?_
  rintro u v - hwu ⟨hv, hgiven⟩
  refine .check fun f hfunction => ?_
  have hf := Value.asFunction_fits hv hfunction
  dsimp only
  split
  · next harity =>
    have hpositional := he.positional hf.params
    have hparams : (args.positional.zip f.params).map (·.2) = f.params :=
      List.map_snd_zip (Nat.le_of_eq harity.symm)
    have hu := hwu.reaches_record hscope
    have hrepeated (name : String)
        (htwice : List.Duplicate name ((args.positional.zip f.params).map (·.2))) :
        Repeated begun (joinPath path s!"({name})") :=
      .positional hbegun hgiven hfunction harity (hparams ▸ htwice)
    refine .bind (evaluateArguments_upholds hcalls hu #[] hpositional hrepeated fun a ha => ?_)
      (regions_within ?_) ?_
    · have hname := (hpositional a ha).2
      refine (hclear.part hname.partId_argument).after_part hname.partId_argument hlambda ?_ hwu
      exact .of_head hname.partId_argument.ne_empty hlambda.ne_empty (by simp [toString])
    · rintro _ ⟨name, hname, rfl⟩
      exact hname.partId_argument
    · rintro x _ - hux ⟨values, rfl, hvalues⟩
      rw [hparams] at hvalues
      have hx := hux.reaches_record hu
      have hopen {id : String} (hid : PartId id) (hapart : IdsApart id "_lambda")
          (hapart' : ∀ name, IsIdentifier name → IdsApart id s!"({name})") :
          x.Open begun tier (joinPath path id) := by
        refine ((hclear.part hid).after_part hid hlambda hapart hwu).after_parts hid ?_ hux
        rintro _ ⟨name, hname, rfl⟩
        exact ⟨hname.partId_argument, hapart' name hname⟩
      have hnamedOpen : ∀ a ∈ args.named, x.Open begun tier (joinPath path a.name.name) := by
        intro a ha
        have hname := (he.named a ha).1
        exact hopen hname.partId (hname.apart_of_head (c := '_') (by decide) (by decide))
          fun name _ => hname.apart_argument name
      have hbody : x.Open begun tier (joinPath path s!"[{f.name}]") :=
        hopen (partId_body f.name) (body_apart f.name hlambda (by decide)) fun name hname =>
          body_apart f.name hname.partId_argument (by simp [toString])
      have hids : ∀ id ∈ {id | IsIdentifier id}, PartId id ∧ IdsApart s!"[{f.name}]" id :=
        fun _ hid => ⟨IsIdentifier.partId hid, body_apart f.name (IsIdentifier.partId hid)
          (IsIdentifier.head hid (by decide))⟩
      refine .bind (evaluateNamed_upholds hcalls hx (by simp) he.named
        (fun _ => .named hbegun) hnamedOpen) (regions_within fun id hid => (hids id hid).1)
        fun y named _ hxy hvalues' => ?_
      have hf' := hf.seen (hux.toExtends.trans hxy.toExtends).kept
      refine (Function.apply_upholds hf' (fun _ => hvalues.mono hxy.toExtends) hvalues' hcalls ?_
        location).mono (partId_body f.name).region_within
      exact hbody.after_parts (partId_body f.name) hids hxy
  · exact .raise _

/-- Without a path a comprehension gives elements that nothing can be done with. -/
theorem evaluateComprehension_upholds (ev : Evaluator) {first last init : Expr}
    {location : Location}
    (he : Expr.WellNamed (.mk (.comprehension first last init) location)) :
    (ev.evaluateComprehension first last init scope path location).Upholds begun carryOut inside w
      tier (within path) fun u v => (v.Fits u tier ∨ path = "") ∧ ¬v.HasMembers := by
  have hfirst : PartId "array_first" := partId_fixed (by decide)
  have hlast : PartId "array_last" := partId_fixed (by decide)
  have hinit : PartId "_initializer" := partId_fixed (by decide)
  refine .bind (Program.evaluatePart_upholds hcalls (he.part (.head _)) hscope hfirst.ne_empty
    (hclear.part hfirst)) hfirst.region_within fun u low _ hwu _ => ?_
  refine .check fun low _ => ?_
  have hu := hwu.reaches_record hscope
  have hlastOpen := (hclear.part hlast).after_part hlast hfirst
    (fixed_apart (by decide) (by decide) (by decide)) hwu
  refine .bind (Program.evaluatePart_upholds hcalls (he.part (.tail _ (.head _))) hu
    hlast.ne_empty hlastOpen) hlast.region_within fun x high _ hux _ => ?_
  refine .check fun high _ => ?_
  have hinitOpen := ((hclear.part hinit).after_part hinit hfirst
    (fixed_apart (by decide) (by decide) (by decide)) hwu).after_part hinit hlast
    (fixed_apart (by decide) (by decide) (by decide)) hux
  refine .bind (Program.evaluatePart_upholds hcalls (he.part (.tail _ (.tail _ (.head _))))
    (hux.reaches_record hu) hinit.ne_empty hinitOpen) hinit.region_within fun y v _ hxy hv => ?_
  refine .check fun f hf => ?_
  dsimp only
  split
  · exact .raise _
  · split
    · exact .raise _
    · by_cases hpath : path = ""
      · refine .bind_still (suspendElements_nowhere f _ _ _ _ _ _) fun _ _ _ _ _ => ?_
        exact .pure ⟨.inr hpath, fun h => h.elim⟩
      · have hcount (n : Int64) : n.toInt.toNat < UInt64.size := by
          have hsize : UInt64.size = 18446744073709551616 := rfl
          have := n.toInt_lt
          omega
        refine .bind (suspendElements_upholds (Value.asFunction_fits hv hf) _ _ hpath (by simp)
          (hcount _) fun k _ => ?_) subset_rfl fun _ cells _ _ hcells => ?_
        · have hdisjoint {id : String} (hid : PartId id) := region_elementPath_disjoint_joinPath
            hpath (low + Int64.ofNat k) hid.ne_empty
          exact (((hclear.element hpath _).later hwu (hdisjoint hfirst)).later hux
            (hdisjoint hlast)).later hxy (hdisjoint hinit)
        · exact .pure ⟨.inl (by simpa [Value.Fits, Value.array, Payload.Fits] using hcells),
            fun h => h.elim⟩

omit hscope hclear in
theorem elementAt_upholds {a : LazyArray} (ha : ∀ c ∈ a.cells, Tier.Reaches (w.cell c) tier)
    (index : Int64) (location : Location) :
    (elementAt a index location).Upholds begun carryOut inside w tier ∅ fun u v =>
      v.Fits u tier := by
  unfold elementAt
  split
  · next cell hcell =>
    exact Program.force_upholds hcalls (ha cell (LazyArray.mem_of_cellAt? hcell))
  · exact .raise _

theorem evaluateIndex_upholds {base index : Expr} {location : Location}
    (he : Expr.WellNamed (.mk (.index base index) location)) (ev : Evaluator) :
    (ev.evaluateKind (.index base index) location scope path).Upholds begun carryOut inside w tier
      (within path) fun u v => v.Fits u tier := by
  have hvector : PartId "_vector" := partId_fixed (by decide)
  have hindex : PartId "_index" := partId_fixed (by decide)
  refine .bind (Program.evaluatePart_upholds hcalls (he.part (.head _)) hscope hvector.ne_empty
    (hclear.part hvector)) hvector.region_within fun u v _ hwu hv => ?_
  refine .check fun a ha => ?_
  have hopen := (hclear.part hindex).after_part hindex hvector
    (fixed_apart (by decide) (by decide) (by decide)) hwu
  refine .bind (Program.evaluatePart_upholds hcalls (he.part (.tail _ (.head _)))
    (hwu.reaches_record hscope) hindex.ne_empty hopen) hindex.region_within fun x i _ hux _ => ?_
  refine .check fun i _ => ?_
  have hcells := Value.asArray_fits hv ha
  exact (elementAt_upholds hcalls (fun c hc => hux.reaches_cell (hcells c hc)) i _).mono
    (Set.empty_subset _)

/-- The node of an operator has the path of the operator, which none of the operands can give. -/
theorem evaluateBinary_upholds {ev : Evaluator} (hev : ev.registry = .standard) {op : BinaryOp}
    {left right : Expr} {location : Location}
    (he : Expr.WellNamed (.mk (.binary op left right) location)) :
    (ev.evaluateKind (.binary op left right) location scope path).Upholds begun carryOut inside w
      tier (region path) fun u v => v.Given begun w tier path u := by
  have hleft := partId_left op
  have hright := partId_right op
  refine Program.Upholds.given_plain (.bind (Program.evaluatePart_upholds hcalls
    (he.part (.head _)) hscope hleft.ne_empty (hclear.part hleft)) hleft.region_subset
    fun u l _ hwu hl => ?_)
  have hopen := (hclear.part hright).after_part hright hleft (operands_apart op).symm hwu
  refine .bind (Program.evaluatePart_upholds hcalls (he.part (.tail _ (.head _)))
    (hwu.reaches_record hscope) hright.ne_empty hopen) hright.region_subset fun x r _ hux hr => ?_
  rw [hev]
  have hfree := hux.free (hwu.free hclear.self hleft.not_mem_region) hright.not_mem_region
  exact (Operator.apply_upholds ⟨op, location, path⟩ (hl.mono hux.toExtends) hr hcalls hfree).mono
    (singleton_subset_region path)

omit hcalls in
theorem evaluateLambda_upholds {params : ParamList} {body : Expr} {location : Location}
    (he : Expr.WellNamed (.mk (.lambda params body) location)) (ev : Evaluator) :
    (ev.evaluateKind (.lambda params body) location scope path).Upholds begun carryOut inside w tier
      (within path) fun u v => v.Fits u tier := by
  obtain ⟨hparams, hdefaults⟩ := he.kind
  have hnamed : ∀ d ∈ params.named, IsIdentifier d.name.name ∧ d.value.WellNamed := fun d hd =>
    ⟨hdefaults d hd, he.part (List.mem_cons_of_mem _ (List.mem_map_of_mem hd))⟩
  refine .bind (suspendDefaults_upholds hscope List.nodup_nil hnamed
    (fun d hd => hclear.part (hnamed d hd).1.partId) (by simp)) subset_rfl ?_
  intro u named _ hlater hreaches
  refine .pure (⟨hlater.reaches_record hscope, hreaches, ?_, he.part (.head _)⟩ :
    Function.Fits u tier _)
  intro name hname
  obtain ⟨p, hp, rfl⟩ := List.mem_map.1 hname
  exact hparams p hp

omit hcalls in
theorem evaluateRecord_upholds {members : List Binding} {location : Location}
    (he : Expr.WellNamed (.mk (.record members) location)) (ev : Evaluator) :
    (ev.evaluateKind (.record members) location scope path).Upholds begun carryOut inside w tier
      (within path) fun u v => v.Fits u tier := by
  have hparent : ∀ p, some scope = some p → Tier.Reaches (w.record p) tier := by
    rintro p ⟨⟩
    exact hscope
  have hmembers : ∀ m ∈ members, IsIdentifier m.name.name ∧ m.value.WellNamed := fun m hm =>
    ⟨he.kind m hm, he.part (List.mem_map_of_mem hm)⟩
  refine .bind_still (Program.newRecord_upholds hparent) fun u record _ hwu hrecord => ?_
  refine .bind (addMembers_upholds hrecord hmembers fun m hm _ =>
    (hclear.part (hmembers m hm).1.partId).later hwu (Set.disjoint_empty _)) subset_rfl ?_
  exact fun x _ _ hux _ => .pure ⟨tier, hux.record record tier hrecord, List.suffix_refl tier⟩

end Parts

section Wholes

variable (hcalls : CallsUphold begun carryOut inside) {scope : RecordId}
  (hscope : Tier.Reaches (w.record scope) tier)

include hcalls hscope

theorem evaluateUnary_upholds {ev : Evaluator} (hev : ev.registry = .standard) {op : UnaryOp}
    {operand : Expr} {location : Location}
    (he : Expr.WellNamed (.mk (.unary op operand) location))
    (hclear : w.Clear begun tier (.mk (.unary op operand) location) scope path) :
    (ev.evaluateUnary op operand scope path location).Upholds begun carryOut inside w tier
      (region path) fun u v => v.Given begun w tier path u := by
  have hoperand := he.part (.head _)
  cases op with
  | not =>
    have hnot : PartId "_not" := partId_fixed (by decide)
    refine Program.Upholds.given (.bind (Program.evaluatePart_upholds hcalls hoperand hscope
      hnot.ne_empty (hclear.part hnot)) hnot.region_within fun u v _ _ _ => ?_)
    exact .check fun b _ => .pure trivial
  | plus =>
    refine .bind (Program.evaluateUnnamed_upholds hcalls hoperand hscope
      (hclear.of_whole rfl)) subset_rfl
      fun u v _ _ hv => ?_
    split
    · exact .pure hv
    · exact .pure hv
    · exact .raise _
  | neg =>
    have hnegate : PartId "_negate" := partId_fixed (by decide)
    refine Program.Upholds.given_plain (.bind (Program.evaluatePart_upholds hcalls hoperand hscope
      hnegate.ne_empty (hclear.part hnegate)) hnegate.region_subset fun u v _ hwu hv => ?_)
    split
    · exact .pure ⟨.inl trivial, fun h => h.elim⟩
    · rw [hev]
      have hminusOne : (Value.number (-1) location path).Fits u tier := trivial
      exact (Operator.apply_upholds ⟨.mul, location, path⟩ hminusOne hv hcalls
        (hwu.free hclear.self hnegate.not_mem_region)).mono (singleton_subset_region path)
    · exact .raise _

/-- The branches are evaluated at the path of the conditional, and what its condition has done is
    in no way of them. -/
theorem evaluateConditional_upholds {condition thenBranch elseBranch : Expr} {location : Location}
    (he : Expr.WellNamed (.mk (.conditional condition thenBranch elseBranch) location))
    (hbegun : Begins begun
      (.evaluate (.mk (.conditional condition thenBranch elseBranch) location) scope path))
    (hclear : w.Clear begun tier (.mk (.conditional condition thenBranch elseBranch) location) scope
      path)
    (ev : Evaluator) :
    (ev.evaluateKind (.conditional condition thenBranch elseBranch) location scope path).Upholds
      begun carryOut inside w tier (region path) fun u v => v.Given begun w tier path u := by
  have hcondition : (Program.evaluatePart condition scope path "if").Upholds begun carryOut inside w
      tier (aside path) fun u _ => ∀ b : Bool,
        u.Clear begun tier (if b then thenBranch else elseBranch) scope path := by
    refine .of_sound fun hw _ => .inCondition (Program.evaluatePart_upholds hcalls
      (he.part (.head _)) (hscope.above (w.suffix_inner tier)) (by decide)
      (hclear.condition hw hbegun rfl)) fun u _ _ hlater _ b => hclear.after hlater hbegun ?_
    cases b
    · exact .tail _ (.head _)
    · exact .head _
  refine .bind hcondition (aside_subset path) fun u v _ hwu hclear' => .check fun b _ => ?_
  have hbranch : (if b then thenBranch else elseBranch).WellNamed := by
    cases b
    · exact he.part (.tail _ (.tail _ (.head _)))
    · exact he.part (.tail _ (.head _))
  exact (Program.evaluateUnnamed_upholds hcalls hbranch (hwu.reaches_record hscope)
    (hclear' b)).imp subset_rfl fun _ _ _ _ hv => hv.after (hwu.mono (aside_within path))

/-- Records and networks leave the name at their own path alone, so a member of one may be a node of
    that name, but none that is made here. -/
theorem evaluateMember_upholds {base : Expr} {member : Ident} {location : Location}
    (he : Expr.WellNamed (.mk (.member base member) location))
    (hclear : w.Clear begun tier (.mk (.member base member) location) scope path) (ev : Evaluator) :
    (ev.evaluateKind (.member base member) location scope path).Upholds begun carryOut inside w tier
      (region path) fun u v => v.Given begun w tier path u := by
  refine .bind (Program.evaluateUnnamed_upholds hcalls (he.part (.head _)) hscope
    (hclear.of_whole rfl)) subset_rfl fun u v _ _ hv => ?_
  refine (Program.memberOf_upholds hcalls hv.members_fit _ _).imp (Set.empty_subset _) ?_
  exact fun _ _ _ hlater h => .of_fits h.1 ((hv.unnamed h.2).trans hlater.nowhere)

/-- An object takes the name that its fields have left alone. -/
theorem evaluateNew_upholds {ev : Evaluator} (hev : ev.registry = .standard) {typeName : Ident}
    {fields : Expr} {location : Location}
    (he : Expr.WellNamed (.mk (.new typeName fields) location))
    (hplain : (ExprKind.new typeName fields).startsNetwork = false)
    (hclear : w.Clear begun tier (.mk (.new typeName fields) location) scope path) :
    (ev.evaluateNew typeName fields scope path location).Upholds begun carryOut inside w tier
      (region path) fun u v => v.Given begun w tier path u := by
  rw [evaluateNew, hev]
  refine .check fun t ht => ?_
  have hscoped : t.isRecordLike = false := (Registry.standard_isRecordLike ht).1.trans hplain
  simp only [hscoped, Bool.false_eq_true, if_false]
  have hfields : w.Clear begun tier fields scope path :=
    hclear.of_whole (by simp [Expr.decider, hplain])
  refine Program.Upholds.given_plain (.bind (Program.evaluate_upholds hcalls (he.part (.head _))
    hscope hfields) subset_rfl fun u v _ _ hv => .check fun record hrecord => ?_)
  have hmembers := Value.hasMembers_of_asRecord hrecord
  have hfree := (hv.unnamed hmembers).free hclear.self fun h => h.2 rfl
  exact (Registry.standard_instantiate_upholds hcalls ht (Value.asRecord_fits
    (hv.members_fit hmembers) hrecord) location hscoped hfree).mono (singleton_subset_region path)

end Wholes

section Networks

variable (hcalls : CallsUphold begun carryOut inside) {ev : Evaluator}
  (hev : ev.registry = .standard) {scope : RecordId}
  (hscope : Tier.Reaches (w.record scope) tier) {typeName : Ident} {fields : Expr}
  (hclear : w.Clear begun tier fields scope "") {location : Location}
  (he : Expr.WellNamed (.mk (.new typeName fields) location))
  (hnetwork : (ExprKind.new typeName fields).startsNetwork = true)

include hcalls hev hscope hclear he hnetwork

/-- The fields of a network are evaluated without a path. They take the names that were held in
    reserve. -/
theorem evaluateNew_network_upholds (path : String) :
    (ev.evaluateNew typeName fields scope path location).Upholds begun carryOut inside w tier
      (region "") fun u v => v.Fits u tier := by
  rw [evaluateNew, hev]
  refine .check fun t ht => ?_
  obtain ⟨hscoped, hnetworkType⟩ := Registry.standard_isRecordLike ht
  obtain rfl := hnetworkType (hscoped.trans hnetwork)
  refine .bind (Program.evaluate_upholds hcalls (he.part (.head _)) hscope hclear) subset_rfl
    fun u v _ _ hv => .check fun record hrecord => ?_
  have hfits := hv.members_fit (Value.hasMembers_of_asRecord hrecord)
  exact (Network.instantiate_upholds hcalls (Value.asRecord_fits hfits hrecord) location path).mono
    (Set.empty_subset _)

/-- The construction of a network does not find two nodes of one name. -/
theorem evaluateNew_network_careful (path : String) :
    (ev.evaluateNew typeName fields scope path location).Careful begun carryOut inside w tier := by
  rw [evaluateNew, hev]
  refine .check (Registry.runtimeType_raises _ _ _) fun t ht => ?_
  obtain ⟨hscoped, hnetworkType⟩ := Registry.standard_isRecordLike ht
  obtain rfl := hnetworkType (hscoped.trans hnetwork)
  refine .bind (.of_ordinary fun _ => trivial)
    (Program.evaluate_upholds hcalls (he.part (.head _)) hscope hclear) fun u v _ _ hv => ?_
  refine .check v.asRecord_raises fun record hrecord => ?_
  have hfits := hv.members_fit (Value.hasMembers_of_asRecord hrecord)
  exact Network.instantiate_careful hcalls (Value.asRecord_fits hfits hrecord) location path

end Networks

/-- Every form of expression but one that starts a network only takes names at its own path, and
    gives what can be seen from where it is evaluated. -/
theorem evaluateKind_upholds (hcalls : CallsUphold begun carryOut inside) {ev : Evaluator}
    (hev : ev.registry = .standard) {kind : ExprKind} {location : Location}
    (he : Expr.WellNamed (.mk kind location)) (hplain : kind.startsNetwork = false)
    {scope : RecordId} (hscope : Tier.Reaches (w.record scope) tier)
    (hbegun : Begins begun (.evaluate (.mk kind location) scope path))
    (hclear : w.Clear begun tier (.mk kind location) scope path) :
    (ev.evaluateKind kind location scope path).Upholds begun carryOut inside w tier (region path)
      fun u v => v.Given begun w tier path u := by
  cases kind with
  | number | text | truth => exact .given (.pure trivial)
  | new typeName fields => exact evaluateNew_upholds hcalls hscope hev he hplain hclear
  | conditional => exact evaluateConditional_upholds hcalls hscope he hbegun hclear ev
  | lambda => exact (evaluateLambda_upholds hscope hclear he ev).given
  | apply => exact (evaluateApply_upholds hcalls hscope hclear he hbegun).given
  | record => exact (evaluateRecord_upholds hscope hclear he ev).given
  | var name =>
    exact .given ((Program.lookup_upholds hcalls hscope name location).mono (Set.empty_subset _))
  | member => exact evaluateMember_upholds hcalls hscope he hclear ev
  | array items =>
    refine .given_plain (.bind ((evaluateItems_upholds hcalls hscope (by simp) ?_ ?_).mono
      (within_subset path)) subset_rfl fun u cells _ _ hcells => .pure ⟨.inl ?_, fun h => h.elim⟩)
    · exact fun item hitem => he.part (List.mem_map_of_mem hitem)
    · exact fun n _ => hclear.part (partId_item n)
    · simpa [Value.Fits, Value.array, Payload.Fits] using hcells
  | comprehension =>
    exact .given_plain ((evaluateComprehension_upholds hcalls hscope hclear ev he).mono
      (within_subset path))
  | index => exact (evaluateIndex_upholds hcalls hscope hclear he ev).given
  | unary => exact evaluateUnary_upholds hcalls hscope hev he hclear
  | binary => exact evaluateBinary_upholds hcalls hscope hclear hev he

/-- Only the construction of a network might report that two nodes have one name. -/
theorem evaluateKind_careful {ev : Evaluator} (hev : ev.registry = .standard) {kind : ExprKind}
    (hplain : kind.startsNetwork = false) (location : Location) (scope : RecordId)
    (path : String) :
    (ev.evaluateKind kind location scope path).Careful begun carryOut inside w tier := by
  cases kind with
  | new typeName fields =>
    change (ev.evaluateNew typeName fields scope path location).Careful begun carryOut inside w tier
    rw [evaluateNew, hev]
    refine .check (Registry.runtimeType_raises _ _ _) fun t ht => .of_ordinary ?_
    refine .bind (fun _ => trivial) fun v => .check v.asRecord_raises fun record => ?_
    exact Registry.instantiate_raises (Registry.standard_construct_raises ht
      ((Registry.standard_isRecordLike ht).1.trans hplain) record location path)
  | _ => exact .of_ordinary (evaluateKind_raises hev (by simp) location scope path)

end Evaluator

end NetDesc
