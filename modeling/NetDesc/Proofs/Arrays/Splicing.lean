import NetDesc.Expr.Build
import NetDesc.Proofs.Arrays.Grouping

namespace NetDesc

namespace Evaluator

/-- The expression has this value, at some depth and with fuel enough. A name that stands for
    something that has been computed already gives just that and changes nothing. -/
structure Yields (ev : Evaluator) (scope : RecordId) (e : Expr) (s : Store) (v : Value)
    (t : Store) : Prop where
  evaluated : ∃ fuel depth path,
    (ev.carryOut fuel depth (.perform (.evaluate e scope path)) s : Outcome Value) = .value v t
  known : ∀ name location m w, e = .mk (.var name) location → s.find? scope name = some m →
    (s.cell m.cell).progress = .finished w → v = w ∧ t = s

/-- What the leaves add to an array, one after another, and what they make of the store. A leaf
    that is an array adds its own cells as they are, and any other leaf adds one new cell that
    holds its value. -/
inductive Splices (ev : Evaluator) (scope : RecordId) :
    (leaves : List Expr) → Store → (cells : List CellId) → Store → Prop
  | nil (s : Store) : Splices ev scope [] s [] s
  /-- The cells of an array are taken over as they are, whatever they hold. -/
  | array {e : Expr} {leaves : List Expr} {s t u : Store} {v : Value} {a : LazyArray}
      {cells : List CellId} (h : ev.Yields scope e s v t) (ha : v.payload = .array a)
      (hrest : Splices ev scope leaves t cells u) :
      Splices ev scope (e :: leaves) s (a.cells.toList ++ cells) u
  /-- A value that is no array is put into a new cell. -/
  | single {e : Expr} {leaves : List Expr} {s t u : Store} {v : Value} {cells : List CellId}
      (h : ev.Yields scope e s v t) (hv : ∀ a, v.payload ≠ .array a)
      (hrest : Splices ev scope leaves ((Access.newCell (.ready v)).perform t).2 cells u) :
      Splices ev scope (e :: leaves) s (t.cells.size :: cells) u

variable {ev : Evaluator} {scope : RecordId} {fuel depth : Nat}

theorem yields_of_run {e : Expr} {path : String} {s t : Store} {v : Value}
    (h : (ev.carryOut fuel depth (.perform (.evaluate e scope path)) s : Outcome Value) =
      .value v t) : ev.Yields scope e s v t := by
  refine ⟨⟨fuel, depth, path, h⟩, ?_⟩
  rintro name location m w rfl hfound hfinished
  cases fuel with
  | zero => cases h
  | succ fuel =>
    rcases Nat.lt_or_ge depth ev.maxDepth with hdepth | hdepth
    · rw [carryOut_evaluate ev fuel s hdepth] at h
      have hforce : (ev.carryOut fuel (depth + 1) (.force m.cell) s : Outcome Value) =
          .value v t :=
        (Program.run_lookup location hfound).symm.trans (Outcome.through_eq_value h)
      cases fuel with
      | zero => cases hforce
      | succ fuel =>
        rw [carryOut_force_finished ev fuel (depth + 1) hfinished] at hforce
        cases hforce
        exact ⟨rfl, rfl⟩
    · rw [carryOut_evaluate_deep ev fuel s hdepth] at h
      cases h

theorem Splices.append {before after : List Expr} {s t u : Store} {cells more : List CellId}
    (h : ev.Splices scope before s cells t) (h' : ev.Splices scope after t more u) :
    ev.Splices scope (before ++ after) s (cells ++ more) u := by
  induction h with
  | nil s => exact h'
  | array h ha hrest ih =>
    rw [List.append_assoc]
    exact .array h ha (ih h')
  | single h hv hrest ih => exact .single h hv (ih h')

/-- An item adds what it adds as a leaf, whether it is an array or not. -/
theorem splices_of_item {e : Expr} {path id : String} {found cells : Array CellId} {s t : Store}
    (h : (Program.evaluatePart e scope path id >>= takeItem found).run (ev.carryOut fuel depth) s =
      .value cells t) :
    ∃ new, cells.toList = found.toList ++ new ∧ ev.Splices scope [e] s new t := by
  rw [Program.run_bind] at h
  obtain ⟨v, u, hv, htake⟩ := Outcome.bind_eq_value h
  have hyields : ev.Yields scope e s v u := yields_of_run ((Program.run_call _ _ s).symm.trans hv)
  have hsingle (hpayload : ∀ a, v.payload ≠ .array a)
      (hcell : (Outcome.value (found.push u.cells.size) ((Access.newCell (.ready v)).perform u).2) =
        .value cells t) :
      ∃ new, cells.toList = found.toList ++ new ∧ ev.Splices scope [e] s new t := by
    cases hcell
    exact ⟨[u.cells.size], Array.toList_push, .single hyields hpayload (.nil _)⟩
  obtain ⟨x, location, via⟩ := v
  cases x with
  | array a =>
    cases htake
    refine ⟨a.cells.toList, Array.toList_append, ?_⟩
    have hspliced := Splices.array hyields rfl (.nil _)
    rwa [List.append_nil] at hspliced
  | _ => exact hsingle (by simp) htake

/-- The items of a literal add what the leaves add that they group. -/
theorem splices_of_run {leaves items : List Expr} (h : Expr.Grouping leaves items) {path : String}
    {count : Nat} {found cells : Array CellId} {s t : Store}
    (hrun : (evaluateItems scope path count found items).run (ev.carryOut fuel depth) s =
      .value cells t) :
    ∃ new, cells.toList = found.toList ++ new ∧ ev.Splices scope leaves s new t := by
  induction h generalizing fuel depth path count found cells s t with
  | nil =>
    cases hrun
    exact ⟨[], (List.append_nil _).symm, .nil _⟩
  | @leaf e leaves items h ih =>
    rw [run_items_cons] at hrun
    obtain ⟨cells', u, hitem, hrest⟩ := Outcome.bind_eq_value hrun
    obtain ⟨new, hnew, hsplices⟩ := splices_of_item hitem
    obtain ⟨more, hmore, hsplices'⟩ := ih hrest
    refine ⟨new ++ more, ?_, hsplices.append hsplices'⟩
    rw [hmore, hnew, List.append_assoc]
  | @group location inner grouped leaves items hinner h ihinner ih =>
    rw [run_items_cons] at hrun
    obtain ⟨cells', u, hgroup, hrest⟩ := Outcome.bind_eq_value hrun
    obtain ⟨new, hnew, hsplices⟩ : ∃ new, cells'.toList = found.toList ++ new ∧
        ev.Splices scope inner s new u := by
      by_cases hnone : fuel = 0 ∨ ev.maxDepth ≤ depth
      · have hcut := ev.run_item_cutOff hnone (.mk (.array grouped) location) scope path
          s!"_vecelem{count}" found s
        rw [hgroup] at hcut
        exact hcut.elim
      · obtain ⟨hsome, hbelow⟩ := not_or.1 hnone
        obtain ⟨fuel, rfl⟩ := Nat.exists_eq_succ_of_ne_zero hsome
        rw [ev.run_group (Nat.lt_of_not_le hbelow)] at hgroup
        obtain ⟨inside, w, hinside, hgiven⟩ := Outcome.bind_eq_value hgroup
        cases hgiven
        obtain ⟨new, hnew, hsplices⟩ := ihinner (Outcome.through_eq_value hinside)
        exact ⟨new, by rw [Array.toList_append, hnew]; rfl, hsplices⟩
    obtain ⟨more, hmore, hsplices'⟩ := ih hrest
    refine ⟨new ++ more, ?_, hsplices.append hsplices'⟩
    rw [hmore, hnew, List.append_assoc]

/-- A literal gives an array that starts at zero and is made of the leaves. -/
theorem splices_of_literal {leaves items : List Expr} (h : Expr.Grouping leaves items)
    {location : Location} {path : String} {s t : Store} {v : Value}
    (hrun : (ev.carryOut fuel depth (.perform (.evaluate (.mk (.array items) location) scope path))
      s : Outcome Value) = .value v t) :
    ∃ a : LazyArray, v = .array a location path ∧ a.first = 0 ∧
      ev.Splices scope leaves s a.cells.toList t := by
  by_cases hnone : fuel = 0 ∨ ev.maxDepth ≤ depth
  · have hcut := ev.evaluate_cutOff hnone (.mk (.array items) location) scope path s
    rw [hrun] at hcut
    exact hcut.elim
  · obtain ⟨hsome, hbelow⟩ := not_or.1 hnone
    obtain ⟨fuel, rfl⟩ := Nat.exists_eq_succ_of_ne_zero hsome
    rw [ev.run_literal (Nat.lt_of_not_le hbelow)] at hrun
    obtain ⟨cells, u, hitems, hgiven⟩ := Outcome.bind_eq_value (Outcome.through_eq_value hrun)
    cases hgiven
    obtain ⟨new, hnew, hsplices⟩ := splices_of_run h hitems
    refine ⟨{ cells }, rfl, rfl, ?_⟩
    rwa [show cells.toList = new from hnew]

/-- The values are arrays of the same cells. -/
def SameCells (v w : Value) : Prop :=
  ∃ cells : Array CellId, v.payload = .array { cells } ∧ w.payload = .array { cells }

theorem SameCells.symm {v w : Value} (h : SameCells v w) : SameCells w v := by
  obtain ⟨cells, hv, hw⟩ := h
  exact ⟨cells, hw, hv⟩

theorem SameCells.trans {v w u : Value} (hvw : SameCells v w) (hwu : SameCells w u) :
    SameCells v u := by
  obtain ⟨cells, hv, hw⟩ := hvw
  obtain ⟨cells', hw', hu⟩ := hwu
  rw [hw] at hw'
  cases hw'
  exact ⟨cells, hv, hu⟩

/-- How the evaluation of a literal ends where expressions may be nested this deep. -/
def literal (ev : Evaluator) (limit fuel depth : Nat) (items : List Expr) (location : Location)
    (scope : RecordId) (path : String) (s : Store) : Outcome Value :=
  (ev.withDepth limit).carryOut fuel depth
    (.perform (.evaluate (.mk (.array items) location) scope path)) s

/-- With as much more room as their items need, literals give arrays of the same cells. -/
theorem Matched.literal_below {extra : Nat} {items items' : List Expr}
    (h : ev.Matched scope extra items items') {limit limit' fuel' depth' : Nat}
    (hfuel : fuel + extra ≤ fuel') (hroom : limit + depth' + extra ≤ limit' + depth)
    (location location' : Location) (path path' : String) {s t : Store} (hst : s.Agrees t) :
    (ev.literal limit fuel depth items location scope path s).Below SameCells
      (ev.literal limit' fuel' depth' items' location' scope path' t) := by
  unfold literal
  by_cases hnone : fuel = 0 ∨ limit ≤ depth
  · have hcut := (ev.withDepth limit).evaluate_cutOff hnone (.mk (.array items) location) scope
      path s
    exact .cutOff hcut _
  · obtain ⟨hsome, hbelow⟩ := not_or.1 hnone
    obtain ⟨fuel, rfl⟩ := Nat.exists_eq_succ_of_ne_zero hsome
    obtain ⟨fuel', rfl⟩ := Nat.exists_eq_add_of_le' (show 1 ≤ fuel' by omega)
    rw [(ev.withDepth limit).run_literal (Nat.lt_of_not_le hbelow),
      (ev.withDepth limit').run_literal (show depth' < limit' by omega)]
    refine Outcome.Below.through (.bind (h (by omega) (by omega) (by omega) _ _ 0 0 #[] #[] hst)
      fun cells cells' s t hcells hst => ?_) location location'
    obtain ⟨new, rfl, rfl⟩ := hcells
    exact .value ⟨_, rfl, rfl⟩ hst

theorem literal_ends (hev : ev.registry.types = []) {limit fuel depth : Nat}
    (hfuel : 3 * (limit - depth) + 3 ≤ fuel) (items : List Expr) (location : Location)
    (scope : RecordId) (path : String) (s : Store) :
    ev.literal limit fuel depth items location scope path s ≠ .exhausted := by
  have hlimited : (ev.withDepth limit).registry.types = [] := hev
  have henough := (ev.withDepth limit).enoughFuel_le depth
    (.perform (.evaluate (.mk (.array items) location) scope path))
  exact (computation_ends hlimited fuel depth).1 _ s (Nat.le_trans henough hfuel)

/-- Literals end in the same way whether their leaves are grouped or not, with the limit on depth
    out of reach. -/
theorem literal_concurs (hev : ev.registry.types = []) {leaves items : List Expr}
    (h : Expr.Grouping leaves items) (scope : RecordId) (location location' : Location)
    (path path' : String) (depth : Nat) (s : Store) :
    ∃ least, ∀ limit, least ≤ limit → ∃ enough, ∀ fuel, enough ≤ fuel →
      (ev.literal limit fuel depth leaves location scope path s).Concurs SameCells
        (ev.literal limit fuel depth items location' scope path' s) := by
  have hflat : ev.Matched scope 0 leaves leaves := Matched.of_grouping hev (.refl leaves)
  have hgrouped : ev.Matched scope 0 items leaves := Matched.of_grouping hev h
  obtain ⟨extra, hmatched⟩ : ∃ extra, ev.Matched scope extra leaves items :=
    Matched.to_grouping hev h
  by_cases hreached : ∃ limit fuel,
      ¬(ev.literal limit fuel depth leaves location scope path s).CutOff
  · -- What is not cut off with some room ends in the same way with more, grouped or not.
    obtain ⟨least, enough, hreached⟩ := hreached
    refine ⟨least + extra, fun limit hlimit => ⟨enough + extra, fun fuel hfuel => ?_⟩⟩
    have hmore : (ev.literal least enough depth leaves location scope path s).Below SameCells
        (ev.literal limit fuel depth leaves location scope path s) :=
      hflat.literal_below (by omega) (by omega) location location path path (.refl s)
    have hitems : (ev.literal least enough depth leaves location scope path s).Below SameCells
        (ev.literal limit fuel depth items location' scope path' s) :=
      hmatched.literal_below hfuel (by omega) location location' path path' (.refl s)
    exact (hmore.concurs hreached).symm.trans (hitems.concurs hreached)
      fun _ _ _ h h' => h.symm.trans h'
  · -- What is cut off with any room at all comes to the limit, however it is grouped.
    refine ⟨0, fun limit _ => ⟨3 * (limit - depth) + 3, fun fuel hfuel => ?_⟩⟩
    have hcut : (ev.literal limit fuel depth leaves location scope path s).CutOff :=
      not_not.1 fun hnot => hreached ⟨limit, fuel, hnot⟩
    have hbelow : (ev.literal limit fuel depth items location' scope path' s).Below SameCells
        (ev.literal limit fuel depth leaves location scope path s) :=
      hgrouped.literal_below (Nat.le_refl fuel) (Nat.le_refl (limit + depth)) location' location
        path' path (.refl s)
    exact hcut.concurs (hbelow.cutOff_of_cutOff hcut)
      (literal_ends hev hfuel leaves location scope path s)
      (literal_ends hev hfuel items location' scope path' s)

/-- What has been accessed in one array is known in every array that holds the same cell. -/
theorem elementAt_resolves {a b : LazyArray} {i j : Int64} {c : CellId}
    (hi : a.cellAt? i = some c) (hj : b.cellAt? j = some c) {place : Location} {s t : Store}
    {v : Value} (h : (elementAt a i place).run (ev.carryOut fuel depth) s = .value v t)
    (place' : Location) (fuel' depth' : Nat) :
    (elementAt b j place').run (ev.carryOut (fuel' + 1) depth') t = .value v t := by
  rw [elementAt, hi] at h
  rw [elementAt, hj]
  have hforce : (ev.carryOut fuel depth (.force c) s : Outcome Value) = .value v t :=
    (Program.run_call _ _ s).symm.trans h
  exact (Program.run_call _ _ t).trans
    (carryOut_force_finished ev fuel' depth' (force_finishes hforce))

/-- The array `a` is what two literals give that group the same leaves, the first with the store `t`
    and the second with `t'`. It starts at zero and is made of the leaves. Its elements are the same
    on both sides, and each of them is shared with every array that holds its cell. -/
structure SharedArray (ev : Evaluator) (scope : RecordId) (leaves : List Expr) (s : Store)
    (a : LazyArray) (t t' : Store) : Prop where
  first : a.first = 0
  spliced : ev.Splices scope leaves s a.cells.toList t
  spliced' : ev.Splices scope leaves s a.cells.toList t'
  stores : t.Agrees t'
  element : ∀ (i : Int64) (place : Location) (fuel depth : Nat),
    3 * (ev.maxDepth - depth) + 3 ≤ fuel →
      ((elementAt a i place).run (ev.carryOut fuel depth) t).Concurs Value.Agrees
        ((elementAt a i place).run (ev.carryOut fuel depth) t')
  shared : ∀ (b : LazyArray) (i j : Int64) (c : CellId), a.cellAt? i = some c →
    b.cellAt? j = some c → ∀ (place place' : Location) (fuel depth fuel' depth' : Nat) (u w : Store)
      (v : Value), (elementAt b j place).run (ev.carryOut fuel depth) u = .value v w →
        (elementAt a i place').run (ev.carryOut (fuel' + 1) depth') w = .value v w

/-- Grouping the leaves of a literal in another way changes nothing. With the limit on depth out of
    reach and fuel enough, either both literals give an array of the same cells, those of leaves
    that are arrays as they are and one for each other leaf, so that the elements are the same too;
    or both fail with errors of the same kind. -/
theorem evaluate_regroups (hev : ev.registry.types = []) {leaves items items' : List Expr}
    (h : Expr.Grouping leaves items) (h' : Expr.Grouping leaves items') (scope : RecordId)
    (location location' : Location) (path path' : String) (depth : Nat) (s : Store) :
    ∃ least, ∀ limit, least ≤ limit → ∃ enough, ∀ fuel, enough ≤ fuel →
      let o := ev.literal limit fuel depth items location scope path s
      let o' := ev.literal limit fuel depth items' location' scope path' s
      (∃ a t t', o = .value (.array a location path) t ∧ o' = .value (.array a location' path') t' ∧
        (ev.withDepth limit).SharedArray scope leaves s a t t') ∨
      ∃ e e' t t', o = .error e t ∧ o' = .error e' t' ∧ e.code = e'.code := by
  obtain ⟨least, hleast⟩ := literal_concurs hev h scope location location path path depth s
  obtain ⟨least', hleast'⟩ := literal_concurs hev h' scope location location' path path' depth s
  refine ⟨max least least', fun limit hlimit => ?_⟩
  obtain ⟨enough, henough⟩ := hleast limit (by omega)
  obtain ⟨enough', henough'⟩ := hleast' limit (by omega)
  refine ⟨max enough enough', fun fuel hfuel => ?_⟩
  have hconcurs := (henough fuel (by omega)).symm.trans (henough' fuel (by omega))
    fun _ _ _ h h' => h.symm.trans h'
  dsimp only
  generalize ho : ev.literal limit fuel depth items location scope path s = o at hconcurs
  generalize ho' : ev.literal limit fuel depth items' location' scope path' s = o' at hconcurs
  cases hconcurs with
  | error hcode t t' => exact .inr ⟨_, _, t, t', rfl, rfl, hcode⟩
  | @value v w hcells t t' hstores =>
    obtain ⟨a, rfl, hfirst, hspliced⟩ := splices_of_literal h ho
    obtain ⟨b, rfl, -, hspliced'⟩ := splices_of_literal h' ho'
    obtain ⟨cells, ha, hb⟩ := hcells
    cases ha
    cases hb
    refine .inl ⟨_, t, t', rfl, rfl, hfirst, hspliced, hspliced', hstores, ?_, ?_⟩
    · exact fun i place fuel depth hfuel =>
        run_concurs hev (elementAt_agrees _ i place) hfuel hstores
    · exact fun b i j c hi hj place place' fuel depth fuel' depth' u w v hgiven =>
        elementAt_resolves hj hi hgiven place' fuel' depth'

/-- A scope where `xs` is an array from three on, of one element that has not been computed. -/
def oneElement : Store where
  cells := #[.ready (.array { first := 3, cells := #[1] } .unknown "xs"),
    .suspended (.evaluate (.ofNumber 7) 0 "xs[3]") .unknown "xs[3]"]
  records := #[{ members := #[("xs", { location := .unknown, cell := 0 })] }]

/-- The leaves `xs` and a text, with an empty group in front, and with the text in two groups. -/
theorem evaluate_regroups_oneElement :
    let ev : Evaluator := { registry := {} }
    let leaves : List Expr := [.ofName "xs", .ofText "end"]
    let items : List Expr := [.ofItems [], .ofItems [.ofName "xs"], .ofText "end"]
    let items' : List Expr := [.ofName "xs", .ofItems [.ofItems [.ofText "end"]]]
    ev.registry.types = [] ∧ Expr.Grouping leaves items ∧ Expr.Grouping leaves items' ∧
      (∃ t, ev.literal 5 20 0 items .unknown 0 "$" oneElement =
        .value (.array { cells := #[1, 2] } .unknown "$") t ∧ (t.cell 1).progress = .pending) ∧
      ∃ least, ∀ limit, least ≤ limit → ∃ enough, ∀ fuel, enough ≤ fuel →
        let o := ev.literal limit fuel 0 items .unknown 0 "$" oneElement
        let o' := ev.literal limit fuel 0 items' .unknown 0 "$" oneElement
        (∃ a t t', o = .value (.array a .unknown "$") t ∧ o' = .value (.array a .unknown "$") t' ∧
          (ev.withDepth limit).SharedArray 0 leaves oneElement a t t') ∨
        ∃ e e' t t', o = .error e t ∧ o' = .error e' t' ∧ e.code = e'.code := by
  intro ev leaves items items'
  have h : Expr.Grouping leaves items :=
    .group .unknown .nil (.group .unknown (.leaf _ .nil) (.leaf _ .nil))
  have h' : Expr.Grouping leaves items' :=
    .leaf _ (.group .unknown (.group .unknown (.leaf _ .nil) .nil) .nil)
  exact ⟨rfl, h, h', ⟨_, rfl, rfl⟩,
    evaluate_regroups rfl h h' 0 .unknown .unknown "$" "$" 0 oneElement⟩

end Evaluator

end NetDesc
