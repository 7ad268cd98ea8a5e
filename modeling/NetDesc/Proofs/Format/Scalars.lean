import NetDesc.Proofs.Arrays.Indices
import NetDesc.Proofs.Format.Grammar
import NetDesc.Proofs.Lockstep.Pairing

namespace NetDesc

namespace Binary64

open Float.Model Float.Model.UnpackedFloat

/-- The integer that a number is has the sign of the number, and is zero iff the mantissa is. -/
theorem exists_magnitude {negative : Bool} {mantissa : Nat} {exponent i : Int}
    (h : (finite negative mantissa exponent).toInt? = some i) :
    ∃ magnitude : Nat, i = (if negative then -(magnitude : Int) else magnitude) ∧
      (magnitude = 0 ↔ mantissa = 0) := by
  rw [toInt?, Option.map_eq_some_iff] at h
  obtain ⟨_, h, rfl⟩ := h
  obtain ⟨magnitude, hmagnitude, hcast⟩ := Option.bind_eq_some_iff.1 h
  cases hcast
  refine ⟨magnitude, rfl, ?_⟩
  split at hmagnitude
  · cases hmagnitude
    rw [Nat.pow_eq, Nat.mul_eq_zero, or_iff_left (Nat.two_pow_pos _).ne']
  · dsimp only at hmagnitude
    split at hmagnitude
    · next hdvd =>
      cases hmagnitude
      rw [Nat.pow_eq] at hdvd ⊢
      obtain ⟨k, rfl⟩ := Nat.dvd_of_mod_eq_zero hdvd
      rw [Nat.mul_div_cancel_left k (Nat.two_pow_pos _), Nat.mul_eq_zero,
        or_iff_right (Nat.two_pow_pos _).ne']
    · cases hmagnitude

/-- An integer is at least zero as a number iff it is as an integer, also where zero has a sign. -/
theorem zero_le_iff_of_toInt? {x : Float} {i : Int} (h : (ofFloat x).toInt? = some i) :
    0 ≤ x ↔ 0 ≤ i := by
  have hle : 0 ≤ x ↔ UnpackedFloat.le (.zero .positive) x.toModel.unpack = true := by
    change decide ((0 : Float).toModel ≤ x.toModel) = true ↔ _
    rw [decide_eq_true_iff]
    exact Iff.rfl
  rw [ofFloat_eq] at h
  rw [hle]
  cases hunpack : x.toModel.unpack with
  | notANumber => rw [hunpack] at h; cases h
  | infinity sign => rw [hunpack] at h; cases h
  | zero sign =>
    rw [hunpack] at h
    obtain ⟨magnitude, rfl, hzero⟩ := exists_magnitude h
    have hcompare : UnpackedFloat.le (.zero .positive) (.zero sign) = true := by
      cases sign <;> rfl
    rw [hzero.2 rfl]
    exact iff_of_true hcompare (by split <;> decide)
  | finite sign mantissa exponent hpos =>
    rw [hunpack] at h
    obtain ⟨magnitude, rfl, hzero⟩ := exists_magnitude h
    have hmagnitude : magnitude ≠ 0 := mt hzero.1 hpos.ne'
    cases sign with
    | positive => exact iff_of_true rfl (Int.natCast_nonneg magnitude)
    | negative =>
      refine iff_of_false (by rintro ⟨⟩) ?_
      change ¬0 ≤ -(magnitude : Int)
      omega

end Binary64

namespace FormatSpec

variable {spec : FormatSpec}

section Padding

theorem length_zeroFill (zeros : Nat) (chars : List Char) :
    (zeroFill zeros chars).length = zeros + chars.length := by
  unfold zeroFill
  split <;> simp only [List.length_append, List.length_cons, List.length_replicate] <;> omega

/-- A text is filled up to the width, and never cut. -/
theorem length_pad (spec : FormatSpec) (isNumber : Bool) (s : String) :
    (spec.pad isNumber s).length = max spec.width s.length := by
  unfold pad
  dsimp only
  split
  · omega
  · split
    · simp only [String.length_append, String.length_pushn, String.length_empty]
      omega
    · split
      · rw [String.length_ofList, length_zeroFill, String.length_toList]
        omega
      · simp only [String.length_append, String.length_pushn, String.length_empty]
        omega

/-- A text that is not filled with zeros is filled with spaces, all of them on the side that it is
    not aligned to. -/
theorem toList_pad_spaces {isNumber : Bool}
    (h : spec.leftAlign = false → (spec.zeroPad && isNumber) = false) (s : String) :
    ∃ before after, (before ≠ 0 → spec.leftAlign = false) ∧ (after ≠ 0 → spec.leftAlign = true) ∧
      (spec.pad isNumber s).toList =
        List.replicate before ' ' ++ (s.toList ++ List.replicate after ' ') := by
  unfold pad
  dsimp only
  split
  · exact ⟨0, 0, by simp, by simp, by simp⟩
  · split
    · next hleft =>
      exact ⟨0, spec.width - s.length, by simp, fun _ => hleft, by simp [Json.toList_pushn]⟩
    · next hleft =>
      rw [Bool.not_eq_true] at hleft
      rw [h hleft]
      exact ⟨spec.width - s.length, 0, fun _ => hleft, by simp, by simp [Json.toList_pushn]⟩

/-- Nothing is filled in where nothing is missing. -/
theorem zeroFill_zero (chars : List Char) : zeroFill 0 chars = chars := by
  unfold zeroFill
  split <;> rfl

theorem toList_pad_zeros (hleft : spec.leftAlign = false) (hzero : spec.zeroPad = true)
    (s : String) : (spec.pad true s).toList = zeroFill (spec.width - s.length) s.toList := by
  unfold pad
  dsimp only
  split
  · next hnone => rw [hnone, zeroFill_zero]
  · rw [hleft, hzero]
    exact String.toList_ofList

end Padding

section Integers

/-- The sign that the text of an integer has. -/
def signOf (spec : FormatSpec) (i : Int) : List Char :=
  if i < 0 then ['-'] else if spec.plusSign then ['+'] else []

/-- What the text of an integer consists of, in this order: spaces, a sign, zeros that fill the
    text up, digits and again spaces. What fills the text stands where it does no harm, so the
    integer can be read off it. -/
structure IntegerLayout where
  before : Nat
  sign : List Char
  zeros : Nat
  digits : List Char
  after : Nat

namespace IntegerLayout

def chars (l : IntegerLayout) : List Char :=
  List.replicate l.before ' ' ++
    (l.sign ++ (List.replicate l.zeros '0' ++ (l.digits ++ List.replicate l.after ' ')))

/-- The text shows the integer, and is filled up as the format wants it. -/
structure Shows (l : IntegerLayout) (spec : FormatSpec) (i : Int) : Prop where
  sign : l.sign = spec.signOf i
  isDigit : ∀ c ∈ l.digits, c.isDigit = true
  length : max 1 (spec.precision.getD 0) ≤ l.digits.length
  denotes : Nat.ofDigitChars 10 (List.replicate l.zeros '0' ++ l.digits) 0 = i.natAbs
  before : l.before ≠ 0 → spec.leftAlign = false
  zeros : l.zeros ≠ 0 → spec.leftAlign = false ∧ spec.zeroPad = true ∧ l.before = 0
  after : l.after ≠ 0 → spec.leftAlign = true

end IntegerLayout

/-- Zeros in front do not count. -/
theorem ofDigitChars_zeros (zeros : Nat) (digits : List Char) :
    Nat.ofDigitChars 10 (List.replicate zeros '0' ++ digits) 0 = Nat.ofDigitChars 10 digits 0 := by
  induction zeros with
  | zero => rfl
  | succ zeros ih =>
    rw [List.replicate_succ, List.cons_append, Nat.ofDigitChars_cons]
    exact ih

/-- An integer without what fills it up: its sign, and as many digits as there have to be. -/
theorem toList_numberText {x : Float} {i : Int} (hi : (Binary64.ofFloat x).toInt? = some i)
    (hlimit : i.natAbs < integerLimit) :
    (spec.numberText x).toList = spec.signOf i ++
      (List.replicate (spec.precision.getD 0 - (toString i.natAbs).length) '0' ++
        (toString i.natAbs).toList) := by
  have hplus : decide (0 ≤ x) = decide (0 ≤ i) :=
    decide_eq_decide.2 (Binary64.zero_le_iff_of_toInt? hi)
  simp only [numberText, hi, if_pos hlimit, hplus, integerText, signOf]
  by_cases hneg : i < 0
  · have hnot : decide (0 ≤ i) = false := decide_eq_false (Int.not_le.2 hneg)
    simp [hneg, hnot, Number.signText, Json.toList_pushn]
  · have hpos : 0 ≤ i := Int.not_lt.1 hneg
    cases hsign : spec.plusSign <;> simp [hpos, hneg, Number.signText, Json.toList_pushn]

/-- Zeros that fill up an integer stand behind its sign. -/
theorem zeroFill_signOf (spec : FormatSpec) (i : Int) (zeros : Nat) {digits : List Char}
    (hdigits : ∀ c ∈ digits, c.isDigit = true) :
    zeroFill zeros (spec.signOf i ++ digits) =
      spec.signOf i ++ (List.replicate zeros '0' ++ digits) := by
  unfold signOf
  split
  · rfl
  · split
    · rfl
    · cases digits with
      | nil => rfl
      | cons c digits =>
        have hc := hdigits c List.mem_cons_self
        rw [List.nil_append, List.nil_append]
        unfold zeroFill
        split
        · next heq =>
          cases heq
          cases hc
        · next heq =>
          cases heq
          cases hc
        · rfl

/-- The text of an integer in a format. -/
theorem exists_integerLayout {x : Float} {i : Int} (hi : (Binary64.ofFloat x).toInt? = some i)
    (hlimit : i.natAbs < integerLimit) :
    ∃ l : IntegerLayout, (spec.formatNumber x).toList = l.chars ∧ l.Shows spec i := by
  have htext : (spec.numberText x).toList = _ := toList_numberText hi hlimit
  generalize hdigits : List.replicate (spec.precision.getD 0 - (toString i.natAbs).length) '0' ++
    (toString i.natAbs).toList = digits at htext
  have hisDigit : ∀ c ∈ digits, c.isDigit = true := by
    rw [← hdigits]
    intro c hc
    rcases List.mem_append.1 hc with hc | hc
    · rw [List.eq_of_mem_replicate hc]
      rfl
    · exact (Json.digits_toString i.natAbs).2 c hc
  have hlength : max 1 (spec.precision.getD 0) ≤ digits.length := by
    have hpos := List.length_pos_of_ne_nil (Json.digits_toString i.natAbs).1
    rw [← hdigits, List.length_append, List.length_replicate, ← String.length_toList]
    omega
  have hdenotes (zeros : Nat) :
      Nat.ofDigitChars 10 (List.replicate zeros '0' ++ digits) 0 = i.natAbs := by
    rw [← hdigits, ofDigitChars_zeros, ofDigitChars_zeros, Nat.toString_eq_ofList_toDigits,
      String.toList_ofList, Nat.ofDigitChars_ten_toDigits]
  by_cases hfill : spec.leftAlign = false ∧ spec.zeroPad = true
  · refine ⟨⟨0, spec.signOf i, spec.width - (spec.numberText x).length, digits, 0⟩, ?_, ?_⟩
    · rw [formatNumber, toList_pad_zeros hfill.1 hfill.2, htext, zeroFill_signOf spec i _ hisDigit]
      simp [IntegerLayout.chars]
    · exact ⟨rfl, hisDigit, hlength, hdenotes _, nofun, fun _ => ⟨hfill.1, hfill.2, rfl⟩, nofun⟩
  · have hspaces (hleft : spec.leftAlign = false) : (spec.zeroPad && true) = false := by
      simpa using fun hzero => hfill ⟨hleft, hzero⟩
    obtain ⟨before, after, hbefore, hafter, hpad⟩ := toList_pad_spaces hspaces (spec.numberText x)
    refine ⟨⟨before, spec.signOf i, 0, digits, after⟩, ?_, ?_⟩
    · rw [formatNumber, hpad, htext]
      simp [IntegerLayout.chars]
    · exact ⟨rfl, hisDigit, hlength, hdenotes 0, hbefore, by simp, hafter⟩

end Integers

/-- The text of a string in a format: as many characters as the precision lets through. -/
theorem toList_formatText (spec : FormatSpec) (s : String) :
    ∃ before after, (before = 0 ∨ after = 0) ∧ (spec.formatText s).toList =
      List.replicate before ' ' ++ (s.toList.take (min (spec.precision.getD s.length) s.length) ++
        List.replicate after ' ') := by
  have hspaces (_ : spec.leftAlign = false) : (spec.zeroPad && false) = false := Bool.and_false _
  have hpads (shown : String) : ∃ before after, (before = 0 ∨ after = 0) ∧
      (spec.pad false shown).toList =
        List.replicate before ' ' ++ (shown.toList ++ List.replicate after ' ') := by
    obtain ⟨before, after, hbefore, hafter, hpad⟩ := toList_pad_spaces hspaces shown
    refine ⟨before, after, ?_, hpad⟩
    by_cases hleft : spec.leftAlign = true
    · exact .inl (Classical.not_not.1 fun hne => by simp [hbefore hne] at hleft)
    · exact .inr (Classical.not_not.1 fun hne => hleft (hafter hne))
  rw [formatText]
  cases spec.precision with
  | none =>
    obtain ⟨before, after, hside, hpad⟩ := hpads s
    exact ⟨before, after, hside, by simpa [← String.length_toList] using hpad⟩
  | some count =>
    obtain ⟨before, after, hside, hpad⟩ := hpads (s.take count).toString
    refine ⟨before, after, hside, hpad.trans ?_⟩
    simp [← String.length_toList, List.take_eq_take_min]

end FormatSpec

namespace Evaluator

open FormatSpec

/-- The text of a number, a string or a truth value in any format that is accepted has as many
    characters as the width says, or as many as without any width if these are more. An integer that
    is written without a point is shown by digits that denote it behind its sign, and a string by
    its first characters. -/
theorem scalars_laid_out {how : String} {spec : FormatSpec} (hspec : spec.Spelled how.toList)
    {v : Value} (hv : v.payload.IsScalar) (ev : Evaluator) (fuel : Nat) (s : Store) :
    ∃ text unpadded : String, ev.formatValue (fuel + 1) v how s = .value text s ∧
      ev.run (fuel + 1) (Program.render { spec with width := 0 } v) s = .value unpadded s ∧
      text.length = max spec.width unpadded.length ∧
      (∀ x i, v.payload = .number x → (Binary64.ofFloat x).toInt? = some i →
        i.natAbs < 10 ^ 15 → ∃ l : IntegerLayout, text.toList = l.chars ∧ l.Shows spec i) ∧
      ∀ t, v.payload = .text t → ∃ before after, (before = 0 ∨ after = 0) ∧ text.toList =
        List.replicate before ' ' ++ (t.toList.take (min (spec.precision.getD t.length) t.length) ++
          List.replicate after ' ') := by
  have hunpadded (isNumber : Bool) (text : String) :
      FormatSpec.pad { spec with width := 0 } isNumber text = text := if_pos (Nat.zero_sub _)
  have hparse (location : Location) : FormatSpec.parse how location = .ok spec :=
    FormatSpec.parse_eq_ok_iff.2 hspec
  obtain ⟨payload, location, path⟩ := v
  rw [Evaluator.formatValue, hparse]
  cases payload with
  | number x =>
    refine
      ⟨spec.formatNumber x, spec.numberText x, rfl, congrArg (Outcome.value · s) ?_, ?_, ?_, ?_⟩
    · exact hunpadded true _
    · exact length_pad spec true _
    · rintro _ i ⟨⟩ hi hlimit
      exact exists_integerLayout hi hlimit
    · rintro t ⟨⟩
  | text t =>
    refine
      ⟨spec.formatText t, FormatSpec.formatText { spec with width := 0 } t, rfl, rfl, ?_, ?_, ?_⟩
    · exact (length_pad spec false _).trans (congrArg (max _ ·.length) (hunpadded false _).symm)
    · rintro x i ⟨⟩
    · rintro _ ⟨⟩
      exact toList_formatText spec t
  | truth b =>
    refine ⟨spec.formatTruth b, if b then "true" else "false", rfl,
      congrArg (Outcome.value · s) ?_, ?_, ?_, ?_⟩
    · exact hunpadded false _
    · exact length_pad spec false _
    · rintro x i ⟨⟩
    · rintro t ⟨⟩
  | _ => exact hv.elim

/-- The zeros that the width asks for stand between the sign and the digits. -/
theorem scalars_laid_out_signed :
    let spec : FormatSpec :=
      { zeroPad := true, plusSign := true, width := 8, precision := some 3 }
    spec.Spelled "+08.3".toList ∧ (Binary64.ofFloat 7).toInt? = some 7 ∧
      spec.formatNumber 7 = "+0000007" ∧ ∃ text : String,
        ({} : Evaluator).formatValue 1 (.number 7 .unknown "") "+08.3" {} = .value text {} ∧
          ∃ l : IntegerLayout, text.toList = l.chars ∧ l.Shows spec 7 := by
  intro spec
  have hspelled : spec.Spelled "+08.3".toList := by
    have hflags : ∀ c ∈ ['+', '0'], c ∈ flagChars := by simp [flagChars]
    have hwidth : SizeSpelled 8 ['8'] := ⟨by simp, rfl, by omega⟩
    have hprecision : SizeSpelled 3 ['3'] := ⟨by simp, rfl, by omega⟩
    exact .mk hflags hwidth (by simp) (.some hprecision)
  have hseven : (Binary64.ofFloat 7).toInt? = some 7 := by decide +kernel
  have htext : spec.formatNumber 7 = "+0000007" := by decide +kernel
  have hscalar : (Value.number 7 .unknown "").payload.IsScalar := trivial
  obtain ⟨text, -, hformat, -, -, hinteger, -⟩ := scalars_laid_out hspelled hscalar {} 0 {}
  exact ⟨hspelled, hseven, htext, text, hformat, hinteger 7 7 rfl hseven (by decide)⟩

end Evaluator

end NetDesc
