import NetDesc.Proofs.Arrays.Comprehension

namespace NetDesc

/-- The piece begins behind the first `start` characters of the string and has `size` of them. -/
def IsPiece (whole : String) (start size : Nat) (piece : String) : Prop :=
  ∃ before after : String,
    whole = before ++ (piece ++ after) ∧ before.length = start ∧ piece.length = size

namespace TextFunction

/-- Where the piece at a position begins. A negative position counts from the end, and one
    outside of the string is moved to its nearest end. This is exact arithmetic, for comparison
    with what is computed in machine integers. -/
def startIn (length : Nat) (pos : Int) : Int :=
  if 0 ≤ pos then min pos length else max 0 (length + pos)

/-- How many characters the piece has. A negative count goes to the end of the string. -/
def sizeIn (length : Nat) (start count : Int) : Int :=
  if 0 ≤ count then min count (length - start) else length - start

section Bounds

variable (length : Nat) (pos count : Int)

theorem startIn_nonneg : 0 ≤ startIn length pos := by
  unfold startIn
  split <;> omega

theorem startIn_le : startIn length pos ≤ length := by
  unfold startIn
  split <;> omega

theorem sizeIn_nonneg : 0 ≤ sizeIn length (startIn length pos) count := by
  have := startIn_le length pos
  unfold sizeIn
  split <;> omega

/-- A piece ends inside the string. -/
theorem startIn_add_sizeIn_le :
    startIn length pos + sizeIn length (startIn length pos) count ≤ length := by
  unfold sizeIn
  split <;> omega

end Bounds

section Words

theorem toInt_max (i j : Int64) : (max i j).toInt = max i.toInt j.toInt := by
  change (if i ≤ j then j else i).toInt = _
  split
  · next h => rw [max_eq_right (Int64.le_iff_toInt_le.1 h)]
  · next h => rw [max_eq_left (not_le.1 (mt Int64.le_iff_toInt_le.2 h)).le]

theorem toInt_min (i j : Int64) : (min i j).toInt = min i.toInt j.toInt := by
  change (if i ≤ j then i else j).toInt = _
  split
  · next h => rw [min_eq_left (Int64.le_iff_toInt_le.1 h)]
  · next h => rw [min_eq_right (not_le.1 (mt Int64.le_iff_toInt_le.2 h)).le]

theorem neg_iff (i : Int64) : i < 0 ↔ ¬0 ≤ i.toInt :=
  Int64.lt_iff_toInt_lt.trans not_le.symm

variable {length : Nat} (hlength : length ≤ Number.maxExactInt)

include hlength

theorem toInt_length : (Int64.ofNat length).toInt = length := by
  have hmax : Number.maxExactInt = 2 ^ 53 := rfl
  exact Int64.toInt_ofNat_of_lt (by omega)

/-- A position that counts from the end is added to the length without an overflow. -/
theorem toInt_length_add {pos : Int64} (hpos : pos < 0) :
    (Int64.ofNat length + pos).toInt = length + pos.toInt := by
  have hmax : Number.maxExactInt = 2 ^ 53 := rfl
  have hneg := (neg_iff pos).1 hpos
  have hle := pos.le_toInt
  rw [Int64.toInt_add, toInt_length hlength]
  exact Int.bmod_eq_of_le_mul_two (by omega) (by omega)

theorem toInt_substringStart (pos : Int64) :
    (substringStart (Int64.ofNat length) pos).toInt = startIn length pos.toInt := by
  have hzero : (0 : Int64).toInt = 0 := rfl
  unfold substringStart startIn
  split
  · next hneg =>
    rw [if_neg ((neg_iff pos).1 hneg), toInt_max, toInt_length_add hlength hneg, hzero, max_comm]
  · next hnot =>
    rw [neg_iff, not_not] at hnot
    rw [if_pos hnot, toInt_min, toInt_length hlength]

/-- What is left of the string behind the start is counted without an overflow. -/
theorem toInt_length_sub (pos : Int64) :
    (Int64.ofNat length - substringStart (Int64.ofNat length) pos).toInt =
      length - startIn length pos.toInt := by
  have hmax : Number.maxExactInt = 2 ^ 53 := rfl
  have hnonneg := startIn_nonneg length pos.toInt
  have hle := startIn_le length pos.toInt
  rw [Int64.toInt_sub, toInt_length hlength, toInt_substringStart hlength]
  exact Int.bmod_eq_of_le_mul_two (by omega) (by omega)

theorem toInt_substringSize (pos count : Int64) :
    (substringSize (Int64.ofNat length) (substringStart (Int64.ofNat length) pos) count).toInt =
      sizeIn length (startIn length pos.toInt) count.toInt := by
  unfold substringSize sizeIn
  split
  · next hneg =>
    rw [if_neg ((neg_iff count).1 hneg), toInt_length_sub hlength]
  · next hnot =>
    rw [neg_iff, not_not] at hnot
    rw [if_pos hnot, toInt_min, toInt_length_sub hlength]

end Words

section Pieces

variable {text : String} (hlength : text.length ≤ Number.maxExactInt) (pos count : Int64)

include hlength

theorem toList_substring : (substring text pos count).toList =
    (text.toList.drop (startIn text.length pos.toInt).toNat).take
      (sizeIn text.length (startIn text.length pos.toInt) count.toInt).toNat := by
  rw [substring, String.toList_ofList, toInt_substringSize hlength, toInt_substringStart hlength]

theorem substring_isPiece : IsPiece text (startIn text.length pos.toInt).toNat
    (sizeIn text.length (startIn text.length pos.toInt) count.toInt).toNat
    (substring text pos count) := by
  have hchars := toList_substring hlength pos count
  have hle := startIn_add_sizeIn_le text.length pos.toInt count.toInt
  have hstart := startIn_nonneg text.length pos.toInt
  have hsize := sizeIn_nonneg text.length pos.toInt count.toInt
  generalize startIn text.length pos.toInt = start at hchars hle hstart hsize ⊢
  generalize sizeIn text.length start count.toInt = size at hchars hle hsize ⊢
  refine ⟨.ofList (text.toList.take start.toNat),
    .ofList ((text.toList.drop start.toNat).drop size.toNat), ?_, ?_, ?_⟩
  · apply String.toList_injective
    simp only [String.toList_append, String.toList_ofList, hchars, List.take_append_drop]
  · rw [String.length_ofList, List.length_take, String.length_toList]
    omega
  · rw [← String.length_toList, hchars, List.length_take, List.length_drop, String.length_toList]
    omega

/-- A substring without a limit is all that is left of the string. -/
theorem toList_substring_rest : (substring text pos (-1)).toList =
    text.toList.drop (startIn text.length pos.toInt).toNat := by
  have hsize : sizeIn text.length (startIn text.length pos.toInt) (-1 : Int64).toInt =
    text.length - startIn text.length pos.toInt := if_neg (by decide)
  rw [toList_substring hlength, hsize]
  refine List.take_of_length_le ?_
  rw [List.length_drop, String.length_toList]
  have := startIn_nonneg text.length pos.toInt
  omega

theorem take_append_substring_rest :
    String.ofList (text.toList.take (startIn text.length pos.toInt).toNat) ++
      substring text pos (-1) = text := by
  apply String.toList_injective
  rw [String.toList_append, String.toList_ofList, toList_substring_rest hlength,
    List.take_append_drop]

/-- What stands before a position that does not count from the end is a substring as well. -/
theorem substring_append_substring_rest {pos : Int64} (hpos : 0 ≤ pos) :
    substring text 0 pos ++ substring text pos (-1) = text := by
  have hpos' : 0 ≤ pos.toInt := Int64.le_iff_toInt_le.1 hpos
  have hzero : startIn text.length (0 : Int64).toInt = 0 := by
    simp [startIn]
  have hsize : sizeIn text.length 0 pos.toInt = startIn text.length pos.toInt := by
    rw [sizeIn, startIn, if_pos hpos', if_pos hpos', Int.sub_zero]
  have hfront : substring text 0 pos =
      String.ofList (text.toList.take (startIn text.length pos.toInt).toNat) := by
    apply String.toList_injective
    rw [toList_substring hlength, hzero, hsize, String.toList_ofList, Int.toNat_zero,
      List.drop_zero]
  rw [hfront]
  exact take_append_substring_rest hlength pos

end Pieces

section Fields

variable {carryOut : (c : Call) → Store → Outcome c.Reply} {fields : RecordId}
  {s s₁ s₂ s₃ s₄ : Store} {selector arg pos count : Value} {text : String} {p n : Int64}

/-- The fields are read one after another, and all of them before anything is cut. -/
theorem run_construct_substring
    (hselector : (Program.field fields "what").run carryOut s = .value selector s₁)
    (hwhat : selector.asText = .ok "Substr")
    (harg : (Program.field fields "arg").run carryOut s₁ = .value arg s₂)
    (hpos : (Program.field fields "pos").run carryOut s₂ = .value pos s₃)
    (hp : pos.asIndex = .ok p)
    (hcount : (Program.field fields "chars").run carryOut s₃ = .value count s₄)
    (hn : count.asIndex = .ok n) (htext : arg.asText = .ok text) (location : Location)
    (path : String) : (construct fields location path).run carryOut s =
      .value (.text (substring text p n) location path) s₄ := by
  have hresult : (result "Substr" selector arg fields).run carryOut s₂ =
      .value (substring text p n) s₄ := by
    change (Program.field fields "pos" >>= _).run carryOut s₂ = _
    rw [Program.run_bind, hpos]
    change (Program.ofExcept pos.asIndex >>= _).run carryOut s₃ = _
    rw [hp]
    change (Program.field fields "chars" >>= _).run carryOut s₃ = _
    rw [Program.run_bind, hcount]
    change (Program.ofExcept count.asIndex >>= _).run carryOut s₄ = _
    rw [hn]
    change (Program.ofExcept arg.asText >>= _).run carryOut s₄ = _
    rw [htext]
    rfl
  rw [construct, Program.run_bind, hselector]
  change (Program.ofExcept selector.asText >>= _).run carryOut s₁ = _
  rw [hwhat]
  change (Program.field fields "arg" >>= _).run carryOut s₁ = _
  rw [Program.run_bind, harg]
  change (result "Substr" selector arg fields >>= _).run carryOut s₂ = _
  rw [Program.run_bind, hresult]
  rfl

end Fields

/-- The length of a string is a number that is this integer. -/
theorem run_construct_length {carryOut : (c : Call) → Store → Outcome c.Reply} {fields : RecordId}
    {s s₁ s₂ : Store} {selector arg : Value} {text : String}
    (hlength : text.length ≤ Number.maxExactInt)
    (hselector : (Program.field fields "what").run carryOut s = .value selector s₁)
    (hwhat : selector.asText = .ok "Length")
    (harg : (Program.field fields "arg").run carryOut s₁ = .value arg s₂)
    (htext : arg.payload = .text text) (location : Location) (path : String) :
    ∃ x, (NumericFunction.construct fields location path).run carryOut s =
        .value (.number x location path) s₂ ∧
      (Binary64.ofFloat x).toInt? = some (text.length : Int) := by
  have hresult : NumericFunction.result "Length" selector arg = .ok (Float.ofNat text.length) := by
    simp only [NumericFunction.result, NumericFunction.length, htext]
    rfl
  refine ⟨Float.ofNat text.length, ?_, Binary64.toInt?_ofInt (i := text.length) hlength⟩
  rw [NumericFunction.construct, Program.run_bind, hselector]
  change (Program.ofExcept selector.asText >>= _).run carryOut s₁ = _
  rw [hwhat]
  change (Program.field fields "arg" >>= _).run carryOut s₁ = _
  rw [Program.run_bind, harg]
  change (Program.ofExcept (NumericFunction.result "Length" selector arg) >>= _).run carryOut s₂ = _
  rw [hresult]
  rfl

/-- A substring of a string is the contiguous piece that begins where the position says and has as
    many characters as the count says, and nothing overflows when these two are computed, however
    far outside of the string they lie. What stands before the piece that goes on to the end, and
    that piece, make up the string. Whoever asks for the length of the piece is given its size. -/
theorem construct_cuts {carryOut : (c : Call) → Store → Outcome c.Reply} {fields : RecordId}
    {s s₁ s₂ s₃ s₄ : Store} {selector arg pos count : Value} {text : String} {p n : Int64}
    (hlength : text.length ≤ Number.maxExactInt)
    (hselector : (Program.field fields "what").run carryOut s = .value selector s₁)
    (hwhat : selector.asText = .ok "Substr")
    (harg : (Program.field fields "arg").run carryOut s₁ = .value arg s₂)
    (htext : arg.asText = .ok text)
    (hpos : (Program.field fields "pos").run carryOut s₂ = .value pos s₃)
    (hp : pos.asIndex = .ok p)
    (hcount : (Program.field fields "chars").run carryOut s₃ = .value count s₄)
    (hn : count.asIndex = .ok n) (location : Location) (path : String) :
    let length := Int64.ofNat text.length
    let start := startIn text.length p.toInt
    let size := sizeIn text.length start n.toInt
    let piece := substring text p n
    (construct fields location path).run carryOut s = .value (.text piece location path) s₄ ∧
      IsPiece text start.toNat size.toNat piece ∧
      (length.toInt = text.length ∧ (p < 0 → (length + p).toInt = text.length + p.toInt) ∧
        (length - substringStart length p).toInt = text.length - start ∧ 0 ≤ start ∧ 0 ≤ size) ∧
      String.ofList (text.toList.take start.toNat) ++ substring text p (-1) = text ∧
      (0 ≤ p → substring text 0 p ++ substring text p (-1) = text) ∧
      ∀ (fields' : RecordId) (t t₁ t₂ : Store) (selector' arg' : Value),
        (Program.field fields' "what").run carryOut t = .value selector' t₁ →
        selector'.asText = .ok "Length" →
        (Program.field fields' "arg").run carryOut t₁ = .value arg' t₂ →
        arg'.payload = .text piece → ∀ (location' : Location) (path' : String),
          ∃ x, (NumericFunction.construct fields' location' path').run carryOut t =
              .value (.number x location' path') t₂ ∧
            (Binary64.ofFloat x).toInt? = some size := by
  intro length start size piece
  have hpiece : IsPiece text start.toNat size.toNat piece := substring_isPiece hlength p n
  have hstart : 0 ≤ start := startIn_nonneg _ _
  have hsize : 0 ≤ size := sizeIn_nonneg _ _ _
  have hlengthPiece : (piece.length : Int) = size := by
    obtain ⟨before, after, -, -, hpiece⟩ := hpiece
    omega
  refine ⟨run_construct_substring hselector hwhat harg hpos hp hcount hn htext location path,
    hpiece, ⟨toInt_length hlength, toInt_length_add hlength, toInt_length_sub hlength p, hstart,
      hsize⟩, take_append_substring_rest hlength p, substring_append_substring_rest hlength, ?_⟩
  intro fields' t t₁ t₂ selector' arg' hselector' hwhat' harg' hpayload location' path'
  rw [← hlengthPiece]
  refine run_construct_length ?_ hselector' hwhat' harg' hpayload location' path'
  have hle : start + size ≤ text.length := startIn_add_sizeIn_le _ _ _
  omega

/-- A store with nothing but the fields of a substring. -/
def substringFields (arg : String) (pos count : Int64) : Store where
  cells := #[.ready (.text "Substr" .unknown ""), .ready (.text arg .unknown ""),
    .ready (.number (Number.ofIndex pos) .unknown ""),
    .ready (.number (Number.ofIndex count) .unknown "")]
  records := #[{ members := #[("what", ⟨.unknown, 0⟩), ("arg", ⟨.unknown, 1⟩),
    ("pos", ⟨.unknown, 2⟩), ("chars", ⟨.unknown, 3⟩)] }]

/-- Characters are counted, however many bytes they take. -/
theorem construct_cuts_accented :
    let s := substringFields "zählen" (-5) 3
    let carryOut := ({} : Evaluator).carryOut 1 0
    "zählen".length ≤ Number.maxExactInt ∧
      (construct 0 .unknown "$").run carryOut s = .value (.text "ähl" .unknown "$") s ∧
      IsPiece "zählen" 1 3 "ähl" ∧
      substring "zählen" 0 1 ++ substring "zählen" 1 (-1) = "zählen" := by
  intro s carryOut
  have hlength : "zählen".length ≤ Number.maxExactInt := by decide
  have hminusFive : (Value.number (Number.ofIndex (-5)) .unknown "").asIndex = .ok (-5) :=
    Value.asIndex_number (by decide) _ _
  have hone : (Value.number (Number.ofIndex 1) .unknown "").asIndex = .ok 1 :=
    Value.asIndex_number (by decide) _ _
  have hthree : (Value.number (Number.ofIndex 3) .unknown "").asIndex = .ok 3 :=
    Value.asIndex_number (by decide) _ _
  let fields (pos : Int64) : Store := substringFields "zählen" pos 3
  have hwhat (pos : Int64) : (Program.field 0 "what").run carryOut (fields pos) =
      .value (.text "Substr" .unknown "") (fields pos) := rfl
  have harg (pos : Int64) : (Program.field 0 "arg").run carryOut (fields pos) =
      .value (.text "zählen" .unknown "") (fields pos) := rfl
  have hpos (pos : Int64) : (Program.field 0 "pos").run carryOut (fields pos) =
      .value (.number (Number.ofIndex pos) .unknown "") (fields pos) := rfl
  have hcount (pos : Int64) : (Program.field 0 "chars").run carryOut (fields pos) =
      .value (.number (Number.ofIndex 3) .unknown "") (fields pos) := rfl
  obtain ⟨hrun, hpiece, -, -, -, -⟩ := construct_cuts hlength (hwhat (-5)) rfl (harg (-5)) rfl
    (hpos (-5)) hminusFive (hcount (-5)) hthree .unknown "$"
  obtain ⟨-, -, -, -, htogether, -⟩ := construct_cuts hlength (hwhat 1) rfl (harg 1) rfl
    (hpos 1) hone (hcount 1) hthree .unknown "$"
  have htext : substring "zählen" (-5) 3 = "ähl" := by decide +kernel
  rw [htext] at hrun hpiece
  exact ⟨hlength, hrun, hpiece, htogether (by decide)⟩

end TextFunction

end NetDesc
