import Mathlib.Tactic.IntervalCases
import NetDesc.Json.Document
import NetDesc.Proofs.Json.Spelling

namespace NetDesc

namespace Decimal

/-- Zero is nearer to zero than to any other number. -/
theorem roundsTo_zero {mantissa : Nat} (hpos : 0 < mantissa) (exponent grid : Int) :
    roundsTo mantissa exponent (.decimal 0 grid) = false := by
  unfold roundsTo
  dsimp only
  generalize hk : (if (mantissa == Binary64.hiddenBit && decide (Binary64.minExponent < exponent)) =
    true then 1 else 2) = k
  have hle : k ≤ 2 := by
    rw [← hk]
    split <;> decide
  have hlow : (Ratio.binary (4 * mantissa - k) (exponent - 2)).num *
      (Ratio.decimal 0 grid).den ≠ 0 :=
    Nat.mul_ne_zero (Nat.mul_ne_zero (by omega) (Nat.ne_of_gt (Nat.pow_pos (by decide))))
      (Nat.ne_of_gt (Nat.pow_pos (by decide)))
  have hzero (x : Ratio) : (Ratio.decimal 0 grid).num * x.den = 0 := by
    simp [Ratio.decimal]
  split <;> simp [Ratio.le, Ratio.lt, hzero, hlow]

theorem nearest?_digits_pos {tie : Tie} {x : Ratio} {grid : Int} {accepts : Ratio → Bool}
    (hzero : accepts (.decimal 0 grid) = false) {d : Decimal}
    (h : nearest? tie x grid accepts = some d) : 0 < d.digits := by
  unfold nearest? at h
  dsimp only at h
  split at h
  · cases h
    exact Nat.succ_pos _
  · split at h
    · next hbelow =>
      cases h
      refine Nat.pos_of_ne_zero fun hlower => ?_
      dsimp only at hlower
      rw [hlower, hzero] at hbelow
      cases hbelow
    · cases h

theorem shortest_digits_pos (tie : Tie) {mantissa : Nat} (hpos : 0 < mantissa) (exponent : Int) :
    0 < (shortest tie mantissa exponent).digits := by
  unfold shortest
  dsimp only
  split
  · exact Nat.one_pos
  · next d hd hfound =>
    obtain ⟨n, -, hn⟩ := List.exists_of_findSome?_eq_some hfound
    exact nearest?_digits_pos (roundsTo_zero hpos _ _) hn
  · exact hpos

end Decimal

namespace Json

open Numeral Token

section Numbers

/-- The digits of a natural number, of which the first is a zero only in zero itself. -/
theorem digits_toString (n : Nat) : Digits (toString n).toList := by
  rw [Nat.toString_eq_ofList_toDigits, String.toList_ofList]
  exact ⟨Nat.toDigits_ne_nil, fun c hc => Nat.isDigit_of_mem_toDigits (by decide) (by decide) hc⟩

theorem head_toDigits {n : Nat} (h : (Nat.toDigits 10 n).head? = some '0') : n = 0 := by
  induction n using Nat.strongRecOn with
  | _ n ih =>
    rcases Nat.lt_or_ge n 10 with hlt | hge
    · rw [Nat.toDigits_of_lt_base hlt] at h
      interval_cases n
      · rfl
      all_goals cases h
    · rw [Nat.toDigits_of_base_le (by decide) hge, List.head?_append_of_ne_nil _
        Nat.toDigits_ne_nil] at h
      have := ih (n / 10) (by omega) h
      omega

theorem head_toString {n : Nat} (h : (toString n).toList.head? = some '0') : n = 0 := by
  rw [Nat.toString_eq_ofList_toDigits, String.toList_ofList] at h
  exact head_toDigits h

theorem wholeSpelled_toString (n : Nat) : WholeSpelled (toString n).toList where
  digits := digits_toString n
  zero h := by
    rw [head_toString h]
    decide

theorem le_ofDigitChars (chars : List Char) (significand : Nat) :
    significand ≤ Nat.ofDigitChars 10 chars significand := by
  induction chars generalizing significand with
  | nil => exact Nat.le_refl _
  | cons c chars ih =>
    rw [Nat.ofDigitChars_cons]
    exact Nat.le_trans (by omega) (ih _)

theorem accumulate_digitsOf {chars : List Char} {significand : Nat}
    (h : Nat.ofDigitChars 10 chars significand < significandLimit) :
    accumulate significand (digitsOf chars) =
      (Nat.ofDigitChars 10 chars significand, chars.length, []) := by
  induction chars generalizing significand with
  | nil => rfl
  | cons c chars ih =>
    rw [Nat.ofDigitChars_cons] at h ⊢
    have hnext := Nat.lt_of_le_of_lt (le_ofDigitChars chars _) h
    rw [digitsOf, List.map_cons, accumulate, if_pos hnext, ← digitsOf, ih h]
    rfl

/-- What is spelled like a natural number of at most 64 bits stands for it. -/
theorem meaning?_toString {n : Numeral} {value : Nat} (h : n.Spelled (toString value).toList)
    (hvalue : value < significandLimit) : n.meaning? = some (.whole value) := by
  have hdigits := (digits_toString value).2
  generalize hchars : (toString value).toList = chars at h hdigits
  cases h with
  | @mk negative whole afterPoint afterMark fraction exponent hwhole hfraction hexponent =>
    cases negative with
    | true => simp at hdigits
    | false =>
    have hfrac : fraction = none ∧ afterPoint = [] := by
      cases hfraction with
      | none => exact ⟨rfl, rfl⟩
      | some _ => exact absurd (hdigits '.' (by simp)) (by decide)
    have hexp : exponent = none ∧ afterMark = [] := by
      cases hexponent with
      | none => exact ⟨rfl, rfl⟩
      | @unsigned mark _ hmark | @plus mark _ hmark | @minus mark _ hmark =>
        have := hdigits mark (by simp)
        obtain rfl | rfl := hmark <;> cases this
    obtain ⟨rfl, rfl⟩ := hfrac
    obtain ⟨rfl, rfl⟩ := hexp
    simp only [List.append_nil, Bool.false_eq_true, if_false, List.nil_append] at hchars
    have hofDigits : Nat.ofDigitChars 10 whole 0 = value := by
      rw [← hchars, Nat.toString_eq_ofList_toDigits, String.toList_ofList,
        Nat.ofDigitChars_ten_toDigits]
    have hlimit : Nat.ofDigitChars 10 whole 0 < significandLimit := hofDigits ▸ hvalue
    have haccumulate := accumulate_digitsOf hlimit
    simp [meaning?, haccumulate, hofDigits]

/-- The characters are a number without a sign. -/
def Unsigned (chars : List Char) : Prop :=
  ∃ whole afterPoint afterMark fraction exponent, chars = whole ++ (afterPoint ++ afterMark) ∧
    WholeSpelled whole ∧ FractionSpelled fraction afterPoint ∧ ExponentSpelled exponent afterMark

theorem toList_pushn (s : String) (c : Char) (n : Nat) :
    (s.pushn c n).toList = s.toList ++ List.replicate n c := by
  rw [String.pushn_eq_repeat_push]
  induction n with
  | zero => simp [Nat.repeat]
  | succ n ih => simp [Nat.repeat, ih, List.replicate_succ']

variable {digits : List Char}

/-- Zeros are filled in up to the units. -/
theorem wholeSpelled_append_zeros (h : Digits digits) (hhead : digits.head? ≠ some '0')
    (zeros : Nat) : WholeSpelled (digits ++ List.replicate zeros '0') where
  digits := by
    refine ⟨by simp [h.1], fun c hc => ?_⟩
    obtain hc | hc := List.mem_append.1 hc
    · exact h.2 c hc
    · rw [List.eq_of_mem_replicate hc]
      decide
  zero hzero := by
    rw [List.head?_append_of_ne_nil _ h.1] at hzero
    exact absurd hzero hhead

/-- Zeros are filled in after the point, and one before it if nothing else stands there. -/
theorem unsigned_pointed (h : Digits digits) (hhead : digits.head? ≠ some '0') {places : Nat}
    (hplaces : 0 < places) {padded : List Char}
    (hpadded : padded = List.replicate (places + 1 - digits.length) '0' ++ digits) :
    Unsigned (padded.take (padded.length - places) ++
      '.' :: padded.drop (padded.length - places)) := by
  have hdigit : ∀ c ∈ padded, c.isDigit = true := by
    intro c hc
    rw [hpadded, List.mem_append] at hc
    obtain hc | hc := hc
    · rw [List.eq_of_mem_replicate hc]
      decide
    · exact h.2 c hc
  have hlength : padded.length = places + 1 - digits.length + digits.length := by
    simp [hpadded]
  have hwhole : padded.take (padded.length - places) ≠ [] := by
    rw [← List.length_pos_iff, List.length_take]
    omega
  have hdrop : padded.drop (padded.length - places) ≠ [] := by
    rw [← List.length_pos_iff, List.length_drop]
    omega
  refine ⟨_, _, [], _, none, by rw [List.append_nil], ⟨?_, fun hzero => ?_⟩, .some ?_, .none⟩
  · exact ⟨hwhole, fun c hc => hdigit c (List.mem_of_mem_take hc)⟩
  · have hpad : 0 < places + 1 - digits.length := by
      refine Nat.pos_of_ne_zero fun hnone => hhead ?_
      rw [hnone] at hpadded
      rwa [hpadded, List.replicate_zero, List.nil_append, List.head?_take,
        if_neg (by omega)] at hzero
    have hone : padded.length - places = 1 := by omega
    rw [hone] at hzero ⊢
    cases padded with
    | nil => cases hzero
    | cons c rest => simpa using hzero
  · exact ⟨hdrop, fun c hc => hdigit c (List.mem_of_mem_drop hc)⟩

/-- One digit stands before the point, and none after it if there is only one. -/
theorem unsigned_scientific {text : String} (h : Digits text.toList) (exponent : Int) :
    Unsigned (scientific text exponent).toList := by
  obtain ⟨c, tail, htext, hc⟩ := h.head
  have htail : ∀ c ∈ tail, c.isDigit = true := fun c hc => h.2 c (by simp [htext, hc])
  have hmark : ∃ e, ExponentSpelled e
      ('e' :: (if exponent < 0 then '-' else '+') :: (toString exponent.natAbs).toList) := by
    split
    · exact ⟨_, .minus (.inl rfl) (digits_toString _)⟩
    · exact ⟨_, .plus (.inl rfl) (digits_toString _)⟩
  obtain ⟨e, hmark⟩ := hmark
  have hhead : WholeSpelled [c] := ⟨⟨by simp, by simpa using hc⟩, by simp⟩
  have hfirst : (text.take 1).toString = String.ofList [c] :=
    String.toList_injective (by simp [htext])
  have hothers : (text.drop 1).toString = String.ofList tail :=
    String.toList_injective (by simp [htext])
  have hsign : (if exponent < 0 then "-" else "+").toList =
      [if exponent < 0 then '-' else '+'] := by
    split <;> rfl
  have hself (s : String) : toString s = s := rfl
  unfold scientific
  rw [hfirst, hothers]
  cases tail with
  | nil =>
    refine ⟨[c], [], _, none, e, ?_, hhead, .none, hmark⟩
    simp [hself, hsign]
  | cons d tail =>
    refine ⟨[c], '.' :: d :: tail, _, _, e, ?_, hhead, .some ⟨by simp, htail⟩, hmark⟩
    simp [hself, hsign]

/-- A decimal is written as a number without a sign. -/
theorem unsigned_decimalText {d : Decimal} (hpos : 0 < d.digits) :
    Unsigned (decimalText d).toList := by
  have hdigits := digits_toString d.digits
  have hhead : (toString d.digits).toList.head? ≠ some '0' := fun h =>
    Nat.ne_of_gt hpos (head_toString h)
  unfold decimalText Decimal.positional
  dsimp only
  generalize toString d.digits = text at hdigits hhead ⊢
  split
  · split
    · next hexp =>
      refine ⟨_, ['.', '0'], [], _, none, ?_, wholeSpelled_append_zeros hdigits hhead
        d.exponent.toNat, .some (.singleton rfl), .none⟩
      simp [toList_pushn]
    · next hexp =>
      have hplaces : 0 < (-d.exponent).toNat := by omega
      have hpadded := unsigned_pointed hdigits hhead hplaces rfl
      simpa [toList_pushn, ← String.length_toList] using hpadded
  · exact unsigned_scientific hdigits _

/-- The text of a finite number is a number of JSON. -/
theorem spelled_realText {x : Float} {negative : Bool} {mantissa : Nat} {exponent : Int}
    (hx : Binary64.ofFloat x = .finite negative mantissa exponent) :
    ∃ n : Numeral, n.Spelled (realText x).toList := by
  have hsign {chars : List Char} (h : Unsigned chars) :
      ∃ n : Numeral, n.Spelled ((Number.signText negative).toList ++ chars) := by
    obtain ⟨whole, afterPoint, afterMark, fraction, exponent, rfl, hwhole, hfraction, hmark⟩ := h
    cases negative with
    | false => exact ⟨_, .mk false hwhole hfraction hmark⟩
    | true => exact ⟨_, .mk true hwhole hfraction hmark⟩
  cases mantissa with
  | zero =>
    simp only [realText, hx, String.toList_append]
    exact hsign ⟨['0'], ['.', '0'], [], _, none, rfl, ⟨.singleton rfl, fun _ => rfl⟩,
      .some (.singleton rfl), .none⟩
  | succ mantissa =>
    simp only [realText, hx, String.toList_append]
    exact hsign (unsigned_decimalText (Decimal.shortest_digits_pos _ (Nat.succ_pos _) _))

end Numbers

section Strings

/-- The code of a control character has two zeros in front. -/
theorem controlCode_eq {n : Nat} (hn : n < 0x20) :
    (controlCode (Char.ofNat n)).toList =
        ['0', '0', Nat.digitChar (n / 16), Nat.digitChar (n % 16)] ∧
      hexUnit? '0' '0' (Nat.digitChar (n / 16)) (Nat.digitChar (n % 16)) = some n := by
  revert n
  decide

theorem spelled_escapedChar (c : Char) (chars : List Char) :
    Content.Spelled (.ok (chars, none)) (escapedChar c).toList (.ok (c :: chars, none)) := by
  unfold escapedChar
  split
  case h_8 hquote hslash hnewline hreturn htab hback hfeed =>
    split
    · next hlt =>
      obtain ⟨hcode, hunit⟩ := controlCode_eq hlt
      rw [Char.ofNat_toNat] at hcode
      have hadd : Content.addUnit c.toNat (.ok (chars, none)) = .ok (c :: chars, none) := by
        have hhigh : Content.isHigh c.toNat = false := by
          simp [Content.isHigh]
          omega
        have hlow : Content.isLow c.toNat = false := by
          simp [Content.isLow]
          omega
        simp [Content.addUnit, hhigh, hlow, Char.ofNat_toNat]
      rw [String.toList_append, hcode]
      exact .unit hunit (hadd ▸ .done _)
    · next hge =>
      rw [Char.toString, String.toList_singleton]
      exact .plain (Nat.not_lt.1 hge) hquote hslash (.done _)
  all_goals exact .escape rfl (.done _)

/-- The text of a string is spelled as that string, so the text of a document is cut into the
    tokens that the document consists of. -/
theorem spelled_stringText (s : String) :
    Token.Spelled (.text (.ok s)) (stringText s).toList := by
  have hchars (chars before : List Char) : Content.Spelled (.ok (before, none))
      (chars.flatMap fun c => (escapedChar c).toList) (.ok (chars.reverse ++ before, none)) := by
    induction chars generalizing before with
    | nil => exact .done _
    | cons c chars ih =>
      rw [List.flatMap_cons, List.reverse_cons, List.append_assoc]
      exact (spelled_escapedChar c before).append (ih _)
  have hspelled := Token.Spelled.text (hchars s.toList [])
  simpa [stringText, String.toList_join, List.flatMap_map, Content.close] using hspelled

end Strings

section Documents

theorem spaced_renderItems {items : List (Json × List Token)}
    (h : ∀ i ∈ items, Spaced i.2 i.1.render.toList) :
    Spaced (joined (items.map (·.2))) (renderItems (items.map (·.1))).toList := by
  induction items with
  | nil => exact .nil (by simp [renderItems])
  | cons i items ih =>
    rw [List.forall_mem_cons] at h
    cases items with
    | nil => simpa [joined, renderItems] using h.1
    | cons i' items =>
      have hrest := (Spelled.comma.spaced).append (ih h.2)
      simpa [joined, renderItems] using h.1.append hrest

theorem spaced_renderFields {fields : List (String × Json × List Token)}
    (h : ∀ f ∈ fields, Spaced f.2.2 f.2.1.render.toList) :
    Spaced (joined (fields.map fun f => .text (.ok f.1) :: .colon :: f.2.2))
      (renderFields (fields.map fun f => (f.1, f.2.1))).toList := by
  have hfield (f : String × Json × List Token) (hf : Spaced f.2.2 f.2.1.render.toList) :
      Spaced (.text (.ok f.1) :: .colon :: f.2.2)
        (stringText f.1 ++ ":" ++ f.2.1.render).toList := by
    rw [String.toList_append, String.toList_append, List.append_assoc]
    exact (spelled_stringText f.1).spaced.append (Spelled.colon.spaced.append hf)
  induction fields with
  | nil => exact .nil (by simp [renderFields])
  | cons f fields ih =>
    rw [List.forall_mem_cons] at h
    cases fields with
    | nil => simpa [joined, renderFields] using hfield f h.1
    | cons f' fields =>
      have hrest := (Spelled.comma.spaced).append (ih h.2)
      simpa [joined, renderFields] using (hfield f h.1).append hrest

end Documents

end Json

end NetDesc
