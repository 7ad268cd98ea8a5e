import NetDesc.Proofs.Arrays.Indices
import NetDesc.Proofs.Arrays.Range
import NetDesc.Proofs.Calls.Binding
import NetDesc.Proofs.Limits.CutOff

namespace NetDesc

namespace Index

/-- An index that a number can be. -/
def Exact (i : Int64) : Prop :=
  i.toInt.natAbs ≤ Number.maxExactInt

instance (i : Int64) : Decidable (Exact i) :=
  inferInstanceAs (Decidable (i.toInt.natAbs ≤ Number.maxExactInt))

theorem Exact.between {low high i : Int64} (hlow : Exact low) (hhigh : Exact high) (hle : low ≤ i)
    (hge : i ≤ high) : Exact i := by
  rw [Int64.le_iff_toInt_le] at hle hge
  unfold Exact at *
  omega

/-- Exact indices are so far from the bounds of the range that neither counting the elements
    between them nor finding one overflows. -/
theorem Exact.toInt_sub {i j : Int64} (hi : Exact i) (hj : Exact j) :
    (i - j).toInt = i.toInt - j.toInt := by
  have hmax : Number.maxExactInt = 2 ^ 53 := rfl
  unfold Exact at *
  rw [Int64.toInt_sub]
  exact Int.bmod_eq_of_le_mul_two (by omega) (by omega)

theorem Exact.toInt_add {i : Int64} {k : Nat} (hi : Exact i)
    (hk : i.toInt + k ≤ Number.maxExactInt) : (i + Int64.ofNat k).toInt = i.toInt + k := by
  have hmax : Number.maxExactInt = 2 ^ 53 := rfl
  unfold Exact at *
  rw [Int64.toInt_add, Int64.toInt_ofNat_of_lt (by omega)]
  exact Int.bmod_eq_of_le_mul_two (by omega) (by omega)

end Index

theorem Number.toIndex?_exact {x : Float} {i : Int64} (h : toIndex? x = some i) :
    Index.Exact i := by
  have hmax : maxExactInt = 2 ^ 53 := rfl
  unfold toIndex? at h
  split at h
  · next j _ =>
    split at h
    · next hj =>
      cases h
      rw [Index.Exact, Int64.toInt_ofInt_of_le (by omega) (by omega)]
      exact hj
    · cases h
  · cases h

theorem Value.asIndex_of_number {v : Value} {x : Float} (h : v.asNumber = .ok x) {i : Int64}
    (hi : Number.toIndex? x = some i) : v.asIndex = .ok i := by
  simp only [asIndex, h, hi, bind, Except.bind, pure, Except.pure]

theorem Value.asIndex_exact {v : Value} {i : Int64} (h : v.asIndex = .ok i) : Index.Exact i := by
  unfold asIndex at h
  cases hx : v.asNumber with
  | error e =>
    rw [hx] at h
    cases h
  | ok x =>
    rw [hx] at h
    cases hindex : Number.toIndex? x with
    | none =>
      simp only [bind, Except.bind, hindex] at h
      cases h
    | some j =>
      simp only [bind, Except.bind, hindex] at h
      cases h
      exact Number.toIndex?_exact hindex

theorem Value.asIndex_number {i : Int64} (hi : Index.Exact i) (location : Location)
    (path : String) : (Value.number (Number.ofIndex i) location path).asIndex = .ok i :=
  asIndex_of_number rfl (Number.toIndex?_ofIndex hi)

namespace Evaluator

/-- The number of elements of a comprehension is what it should be. -/
theorem toInt_countBetween {low high : Int64} (hlow : Index.Exact low) (hhigh : Index.Exact high) :
    (countBetween low high).toInt = max (high.toInt - low.toInt + 1) 0 := by
  have hmax : Number.maxExactInt = 2 ^ 53 := rfl
  have hsub := hhigh.toInt_sub hlow
  have hone : (1 : Int64).toInt = 1 := rfl
  have hzero : (0 : Int64).toInt = 0 := rfl
  have hleast : Int64.minValue.toInt = -2 ^ 63 := rfl
  have hgreatest : Int64.maxValue.toInt = 2 ^ 63 - 1 := rfl
  unfold Index.Exact at *
  have hadd : (Index.saturatingAdd (high - low) 1).toInt = high.toInt - low.toInt + 1 := by
    rw [Index.saturatingAdd, hsub, hone, Int64.toInt_ofIntClamp (by omega) (by omega)]
  change (if Index.saturatingAdd (high - low) 1 ≤ 0 then (0 : Int64)
    else Index.saturatingAdd (high - low) 1).toInt = _
  split
  · next hle =>
    rw [Int64.le_iff_toInt_le, hadd, hzero] at hle
    rw [hzero, max_eq_right hle]
  · next hgt =>
    rw [Int64.le_iff_toInt_le, hadd, hzero, not_le] at hgt
    rw [hadd, max_eq_left hgt.le]

end Evaluator

namespace LazyArray

/-- Between exact indices, the cell of an element is found by how far it is from the first. -/
theorem cellAt?_exact {a : LazyArray} {i : Int64} (hfirst : Index.Exact a.first)
    (hi : Index.Exact i) (hle : a.first ≤ i) :
    a.cellAt? i = a.cells[(i.toInt - a.first.toInt).toNat]? := by
  have hmax : Number.maxExactInt = 2 ^ 53 := rfl
  have hgreatest : Int64.maxValue.toInt = 2 ^ 63 - 1 := rfl
  unfold Index.Exact at *
  exact cellAt?_of_le hle (by omega)

end LazyArray

/-- The store `t` is `s` with these cells after the others. -/
structure Store.Appended (s t : Store) (count : Nat) (cell : Nat → Cell) : Prop where
  cells_size : t.cells.size = s.cells.size + count
  old : ∀ c < s.cells.size, t.cell c = s.cell c
  new : ∀ k < count, t.cell (s.cells.size + k) = cell k
  others : { t with cells := s.cells } = s

namespace Evaluator

/-- An index as the value that an initializer is called with. -/
def indexValue (location : Location) (path : String) (i : Int64) : Value :=
  .number (Number.ofIndex i) location (elementPath path i)

/-- The cell of an element of a comprehension: a call of the initializer that is made when the
    element is asked for, with a number that is exactly its index. -/
def elementCell (f : Function) (initLocation location : Location) (path : String) (i : Int64) :
    Cell :=
  let task := .element f (indexValue location path i) (elementPath path i) initLocation
  .suspended task initLocation (elementPath path i)

/-- To suspend the elements makes one cell for each and nothing else. -/
theorem suspendElements_appends (carryOut : (c : Call) → Store → Outcome c.Reply) (f : Function)
    (initLocation location : Location) (path : String) (found : Array CellId) (count : Nat)
    (i : Int64) (s : Store) :
    ∃ t, (suspendElements f initLocation location path found count i).run carryOut s =
        .value (found ++ (List.range' s.cells.size count).toArray) t ∧
      s.Appended t count fun k => elementCell f initLocation location path (i + Int64.ofNat k) := by
  induction count generalizing found i s with
  | zero =>
    refine ⟨s, ?_, rfl, fun _ _ => rfl, fun k hk => absurd hk (Nat.not_lt_zero k), rfl⟩
    simp [suspendElements, Program.run, pure]
  | succ count ih =>
    obtain ⟨t, hrun, ht⟩ := ih (found.push s.cells.size) (i + 1)
      ((Access.newCell (elementCell f initLocation location path i)).perform s).2
    have hsize : ((Access.newCell (elementCell f initLocation location path i)).perform s
        ).2.cells.size = s.cells.size + 1 := by
      simp [Access.perform]
    rw [hsize] at hrun
    refine ⟨t, ?_, ?_, ?_, ?_, ?_⟩
    · refine hrun.trans (congrArg (Outcome.value · t) (Array.toList_inj.1 ?_))
      simp [List.range'_succ]
    · rw [ht.cells_size, hsize]
      omega
    · intro c hc
      rw [ht.old c (by omega)]
      simp [Access.perform, hc.ne]
    · rintro (_ | k) hk
      · rw [ht.old _ (by omega)]
        simp [Access.perform]
      · have hnew := ht.new k (by omega)
        have hindex : i + 1 + Int64.ofNat k = i + Int64.ofNat (k + 1) := by
          rw [Int64.ofNat_add, Int64.add_comm (Int64.ofNat k), ← Int64.add_assoc]
          rfl
        rw [hsize, hindex] at hnew
        rw [← hnew, Nat.add_right_comm, Nat.add_assoc]
    · exact congrArg (fun u : Store => { u with cells := s.cells }) ht.others

variable {carryOut : (c : Call) → Store → Outcome c.Reply}

/-- What a comprehension does once its bounds and its initializer are known. -/
theorem run_evaluateComprehension (ev : Evaluator) {first last init : Expr} {scope : RecordId}
    {path : String} {s s₁ s₂ s₃ : Store} {v w g : Value} {low high : Int64} {f : Function}
    (hfirst : (Program.evaluatePart first scope path "array_first").run carryOut s = .value v s₁)
    (hlow : v.asIndex = .ok low)
    (hlast : (Program.evaluatePart last scope path "array_last").run carryOut s₁ = .value w s₂)
    (hhigh : w.asIndex = .ok high)
    (hinit : (Program.evaluatePart init scope path "_initializer").run carryOut s₂ = .value g s₃)
    (hf : g.asFunction = .ok f) (harity : f.arity = 1) (location : Location) :
    (ev.evaluateComprehension first last init scope path location).run carryOut s =
      if ev.maxArrayLength < (countBetween low high).toInt.toNat then
        .error { cause := ev.tooLong low high, location } s₃
      else
        ((suspendElements f init.location location path #[] (countBetween low high).toInt.toNat
          low).run carryOut s₃).bind fun cells t =>
            .value (.array { first := low, cells } location path) t := by
  have hchecked {α β : Type} {checked : Except EvalError α} {a : α} (h : checked = .ok a)
      (next : α → Program β) (s : Store) :
      (Program.ofExcept checked >>= next).run carryOut s = (next a).run carryOut s := by
    rw [h]
    rfl
  unfold evaluateComprehension
  rw [Program.run_bind, hfirst, Outcome.bind]
  refine (hchecked hlow _ s₁).trans ?_
  rw [Program.run_bind, hlast, Outcome.bind]
  refine (hchecked hhigh _ s₂).trans ?_
  rw [Program.run_bind, hinit, Outcome.bind]
  refine (hchecked hf _ s₃).trans ?_
  dsimp only
  rw [if_neg (not_not.2 harity)]
  split
  · rfl
  · rw [Program.run_bind]
    rfl

/-- The array `a` has a cell for each index from `low` to `high`, and none of their initializer
    calls has been made: the store `t` is `s` with these cells after the others. -/
structure Tabulates (f : Function) (initLocation location : Location) (path : String)
    (low high : Int64) (s t : Store) (a : LazyArray) : Prop where
  first : a.first = low
  size : (a.size : Int) = max (high.toInt - low.toInt + 1) 0
  cells_size : t.cells.size = s.cells.size + a.size
  old : ∀ c < s.cells.size, t.cell c = s.cell c
  others : { t with cells := s.cells } = s
  element : ∀ i, low ≤ i → i ≤ high →
    a.cellAt? i = some (s.cells.size + (i.toInt - low.toInt).toNat) ∧
      t.cell (s.cells.size + (i.toInt - low.toInt).toNat) =
        elementCell f initLocation location path i

/-- The cells of a comprehension that has been suspended make a table of its elements. -/
theorem tabulates_of_appended {f : Function} {initLocation location : Location} {path : String}
    {low high : Int64} (hlow : Index.Exact low) (hhigh : Index.Exact high) {s t : Store}
    {count : Nat} (hcount : (count : Int) = max (high.toInt - low.toInt + 1) 0)
    (ht : s.Appended t count fun k =>
      elementCell f initLocation location path (low + Int64.ofNat k)) :
    Tabulates f initLocation location path low high s t
      { first := low, cells := (List.range' s.cells.size count).toArray } where
  first := rfl
  size := by simpa [LazyArray.size] using hcount
  cells_size := by simpa [LazyArray.size] using ht.cells_size
  old := ht.old
  others := ht.others
  element i hle hge := by
    have hi := hlow.between hhigh hle hge
    have hdistance : (i.toInt - low.toInt).toNat < count := by
      rw [Int64.le_iff_toInt_le] at hle hge
      omega
    have hindex : low + Int64.ofNat (i.toInt - low.toInt).toNat = i := by
      rw [Int64.le_iff_toInt_le] at hle
      rw [← Int64.toInt_inj, hlow.toInt_add]
      · omega
      · unfold Index.Exact at hi
        omega
    constructor
    · let a : LazyArray := { first := low, cells := (List.range' s.cells.size count).toArray }
      have hfound := LazyArray.cellAt?_exact (a := a) hlow hi hle
      refine hfound.trans ?_
      simp [a, hdistance]
    · rw [ht.new _ hdistance, hindex]

/-- The element `i` of the array is kept in this cell. To index it is to force the cell, and to
    force the cell for the first time is to apply the initializer to a number that is exactly `i`.
    The application itself cannot fail: it is an evaluation of the body. -/
structure Element (f : Function) (initLocation location : Location) (path : String) (t : Store)
    (a : LazyArray) (i : Int64) (c : CellId) : Prop where
  pending : (t.cell c).progress = .pending
  index : (indexValue location path i).asIndex = .ok i
  forced : ∀ (carryOut : (c : Call) → Store → Outcome c.Reply) (place : Location) (u : Store),
    (elementAt a i place).run carryOut u = carryOut (.force c) u
  applied : ∀ (ev : Evaluator) (fuel depth : Nat) (u : Store),
    (u.cell c).task = (t.cell c).task → (u.cell c).progress = .pending →
      (ev.carryOut (fuel + 2) depth (.force c) u : Outcome Value) =
        settle c (((f.apply [indexValue location path i] [] (elementPath path i) initLocation).run
          (ev.carryOut fuel depth) (u.setProgress c .running)).through initLocation)
  bound : ∀ (carryOut : (c : Call) → Store → Outcome c.Reply) (u : Store), ∃ scope w,
    (f.bindArguments [indexValue location path i] [] initLocation).run carryOut u =
        .value scope w ∧
      (f.apply [indexValue location path i] [] (elementPath path i) initLocation).run carryOut u =
        (Program.evaluatePart f.body scope (elementPath path i) s!"[{f.name}]").run carryOut w

theorem Tabulates.applies {f : Function} {initLocation location : Location} {path : String}
    {low high : Int64} {s t : Store} {a : LazyArray}
    (h : Tabulates f initLocation location path low high s t a) (hlow : Index.Exact low)
    (hhigh : Index.Exact high) (harity : f.arity = 1) {i : Int64} (hle : low ≤ i) (hge : i ≤ high) :
    Element f initLocation location path t a i
      (s.cells.size + (i.toInt - low.toInt).toNat) := by
  obtain ⟨hfound, hcell⟩ := h.element i hle hge
  refine {
    pending := by rw [hcell]; rfl
    index := Value.asIndex_number (hlow.between hhigh hle hge) location _
    forced := fun carryOut place u => ?_
    applied := fun ev fuel depth u htask hpending => ?_
    bound := fun carryOut u => ?_ }
  · rw [elementAt, hfound]
    exact Program.run_call carryOut _ u
  · rw [ev.carryOut_force_pending (fuel + 1) depth hpending, htask, hcell]
    rfl
  · have hcount : [indexValue location path i].length = f.arity := harity.symm
    exact Function.apply_positional hcount _ _ u

/-- A comprehension has as many elements as there are indices from the first bound to the last, and
    no bound is so far out that counting them overflows. It fails if these are more than the limit
    allows. Otherwise it gives an array of just these elements, none of which has been computed, and
    each of them is what the initializer makes of its index. -/
theorem evaluateComprehension_tabulates (ev : Evaluator) {first last init : Expr}
    {scope : RecordId} {path : String} {s s₁ s₂ s₃ : Store} {v w g : Value} {low high : Int64}
    {f : Function}
    (hfirst : (Program.evaluatePart first scope path "array_first").run carryOut s = .value v s₁)
    (hlow : v.asIndex = .ok low)
    (hlast : (Program.evaluatePart last scope path "array_last").run carryOut s₁ = .value w s₂)
    (hhigh : w.asIndex = .ok high)
    (hinit : (Program.evaluatePart init scope path "_initializer").run carryOut s₂ = .value g s₃)
    (hf : g.asFunction = .ok f) (harity : f.arity = 1) (location : Location) :
    let o := (ev.evaluateComprehension first last init scope path location).run carryOut s
    let count := max (high.toInt - low.toInt + 1) 0
    (high - low).toInt = high.toInt - low.toInt ∧ (countBetween low high).toInt = count ∧
      (o.code? = some .invalidArgument ↔ (ev.maxArrayLength : Int) < count) ∧
      (count ≤ ev.maxArrayLength → ∃ a t, o = .value (.array a location path) t ∧
        Tabulates f init.location location path low high s₃ t a ∧
          ∀ i, low ≤ i → i ≤ high → Element f init.location location path t a i
            (s₃.cells.size + (i.toInt - low.toInt).toNat)) := by
  intro o count
  have hlow' := Value.asIndex_exact hlow
  have hhigh' := Value.asIndex_exact hhigh
  have hcount : (countBetween low high).toInt = count := toInt_countBetween hlow' hhigh'
  have hrun := ev.run_evaluateComprehension hfirst hlow hlast hhigh hinit hf harity location
  have hfails (hlong : (ev.maxArrayLength : Int) < count) : o.code? = some .invalidArgument := by
    rw [if_pos (by omega)] at hrun
    rw [show o = _ from hrun]
    rfl
  have hgives (hshort : count ≤ ev.maxArrayLength) :
      ∃ a t, o = .value (.array a location path) t ∧
        Tabulates f init.location location path low high s₃ t a := by
    obtain ⟨t, hsuspend, ht⟩ := suspendElements_appends carryOut f init.location location path #[]
      (countBetween low high).toInt.toNat low s₃
    rw [if_neg (by omega), hsuspend, Array.empty_append] at hrun
    exact ⟨_, t, hrun, tabulates_of_appended hlow' hhigh' (by omega) ht⟩
  refine ⟨hhigh'.toInt_sub hlow', hcount, ⟨fun hcode => ?_, hfails⟩, fun hshort => ?_⟩
  · by_contra hshort
    obtain ⟨a, t, ho, -⟩ := hgives (not_lt.1 hshort)
    rw [ho] at hcode
    cases hcode
  · obtain ⟨a, t, ho, htable⟩ := hgives hshort
    exact ⟨a, t, ho, htable, fun i hle hge => htable.applies hlow' hhigh' harity hle hge⟩

/-- The initializer that gives each index itself. -/
def sameExpr : Expr :=
  .function ["i"] [] (.ofName "i")

/-- From minus one to one there are three elements, and the middle one is made from zero. -/
theorem evaluateComprehension_tabulates_same :
    let ev : Evaluator := {}
    let bound (i : Int64) : Expr := .ofNumber (Number.ofIndex i)
    let s : Store := { records := #[{}] }
    ∃ f a t, (ev.evaluateComprehension (bound (-1)) (bound 1) sameExpr 0 "$" .unknown).run
        (ev.carryOut 2 0) s = .value (.array a .unknown "$") t ∧ a.size = 3 ∧
      Element f .unknown .unknown "$" t a 0 1 := by
  intro ev bound s
  have hfirst : (Program.evaluatePart (bound (-1)) 0 "$" "array_first").run (ev.carryOut 2 0) s =
      .value (.number (Number.ofIndex (-1)) .unknown "$.array_first") s := rfl
  have hlast : (Program.evaluatePart (bound 1) 0 "$" "array_last").run (ev.carryOut 2 0) s =
      .value (.number (Number.ofIndex 1) .unknown "$.array_last") s := rfl
  let f : Function :=
    { params := ["i"], named := [], body := .ofName "i", scope := 0, name := "_initializer" }
  have hinit : (Program.evaluatePart sameExpr 0 "$" "_initializer").run (ev.carryOut 2 0) s =
      .value ⟨.function f, .unknown, "$._initializer"⟩ s := rfl
  obtain ⟨-, -, -, hgives⟩ := evaluateComprehension_tabulates ev hfirst
    (Value.asIndex_number (by decide) _ _) hlast (Value.asIndex_number (by decide) _ _) hinit rfl
    rfl .unknown
  obtain ⟨a, t, ho, htable, helement⟩ := hgives (by decide)
  have hsize : (a.size : Int) = 3 := htable.size
  exact ⟨f, a, t, ho, by omega, helement 0 (by decide) (by decide)⟩

end Evaluator

end NetDesc
