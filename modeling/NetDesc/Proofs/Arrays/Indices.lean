import Mathlib
import NetDesc.Number

namespace NetDesc

namespace Binary64

open Float.Model Float.Model.UnpackedFloat

/-- A number as the logical model of floating-point numbers takes it apart. -/
def ofUnpacked : UnpackedFloat → Binary64
  | .notANumber => .nan
  | .infinity sign => .infinite (sign == .negative)
  | .zero sign => .finite (sign == .negative) 0 minExponent
  | .finite sign mantissa exponent _ => .finite (sign == .negative) mantissa exponent

theorem toNat_unpackExponent (b : BitVec 64) :
    (@unpackExponent .binary64 b).toNat = b.toNat / 2 ^ 52 % 2 ^ 11 := by
  simp [unpackExponent, BitVec.extractLsb_toNat, Nat.shiftRight_eq_div_pow]

theorem toNat_unpackMantissa (b : BitVec 64) :
    (@unpackMantissa .binary64 b).toNat = b.toNat % 2 ^ 52 := by
  simp [unpackMantissa, BitVec.extractLsb_toNat]

theorem toNat_unpackSign (b : BitVec 64) :
    (@unpackSign .binary64 b).toNat = b.toNat / 2 ^ 63 % 2 := by
  simp [unpackSign, BitVec.extractLsb_toNat, Nat.shiftRight_eq_div_pow]

theorem ofBitVec_eq_negative (b : BitVec 1) : (Sign.ofBitVec b == .negative) = (b.toNat == 1) := by
  revert b
  decide

theorem toNat_hiddenBit_append (fraction : BitVec 52) :
    (1#1 ++ fraction).toNat = hiddenBit + fraction.toNat := by
  rw [BitVec.toNat_append, ← Nat.shiftLeft_add_eq_or_of_lt fraction.isLt]
  rfl

/-- The bits of a number say what the logical model of floating-point numbers says of it. -/
theorem ofFloat_eq (x : Float) : ofFloat x = ofUnpacked x.toModel.unpack := by
  have hbits : x.toModel.toBits.toBitVec.toNat = x.toBits.toNat := rfl
  generalize hb : x.toModel.toBits.toBitVec = b at hbits
  have hsign := ofBitVec_eq_negative (@unpackSign .binary64 b)
  rw [toNat_unpackSign] at hsign
  have hones : @unpackExponent .binary64 b = -1#11 ↔ b.toNat / 2 ^ 52 % 2 ^ 11 = 2047 := by
    rw [← toNat_unpackExponent, ← BitVec.toNat_inj]
    rfl
  have hzeros : @unpackExponent .binary64 b = 0#11 ↔ b.toNat / 2 ^ 52 % 2 ^ 11 = 0 := by
    rw [← toNat_unpackExponent, ← BitVec.toNat_inj]
    rfl
  have hfraction : @unpackMantissa .binary64 b = 0#52 ↔ b.toNat % 2 ^ 52 = 0 := by
    rw [← toNat_unpackMantissa, ← BitVec.toNat_inj]
    rfl
  rw [ofFloat, ← hbits, Float.Model.unpack, hb, ofBits, UnpackedFloat.unpack]
  simp only [hones, hzeros, hfraction, Nat.pow_eq, show 2 ^ 11 - 1 = 2047 from rfl, ← hsign]
  by_cases hspecial : b.toNat / 2 ^ 52 % 2 ^ 11 = 2047
  · rw [if_pos hspecial, if_pos hspecial]
    split <;> rfl
  · rw [if_neg hspecial, if_neg hspecial]
    by_cases hsmall : b.toNat / 2 ^ 52 % 2 ^ 11 = 0
    · rw [if_pos hsmall, if_pos hsmall]
      split
      · next hzero => rw [hzero, ofUnpacked]
      · rw [ofUnpacked, toNat_unpackMantissa, toNat_unpackExponent, hsmall]
        rfl
    · rw [if_neg hsmall, if_neg hsmall, ofUnpacked, toNat_unpackExponent]
      rw [toNat_hiddenBit_append, toNat_unpackMantissa]
      have hexponent : (Format.binary64.exponentBias : Int) + 52 = 1 - minExponent := rfl
      congr 1
      omega

/-- A mantissa and an exponent that need no rounding. -/
structure Normal (mantissa : Nat) (exponent : Int) : Prop where
  lower : 2 ^ 52 ≤ mantissa
  upper : mantissa < 2 ^ 53
  least : minExponent ≤ exponent
  greatest : exponent ≤ 971

namespace Normal

variable {mantissa : Nat} {exponent : Int} (h : Normal mantissa exponent)

include h

theorem log2_eq : mantissa.log2 = 52 := by
  have hpos : mantissa ≠ 0 := Nat.ne_of_gt (Nat.lt_of_lt_of_le (Nat.two_pow_pos 52) h.lower)
  exact (Nat.log2_eq_iff hpos).2 ⟨h.lower, h.upper⟩

/-- Packing loses nothing. -/
theorem unpack_pack (sign : Sign) (hpos : 0 < mantissa) :
    (Float.Model.pack (.finite sign mantissa exponent hpos)).unpack =
      .finite sign mantissa exponent hpos := by
  have hbits : Format.binary64.mantissaBits = 53 := rfl
  have hbias : (Format.binary64.exponentBias : Int) + 52 = 1 - minExponent := rfl
  obtain ⟨biased, hbiased⟩ := Int.eq_ofNat_of_zero_le (a := exponent + 1 - minExponent) (by
    have := h.least
    omega)
  have hsmall : biased < 2 ^ 11 - 1 := by
    have := h.greatest
    rw [minExponent] at hbiased
    omega
  have hpacked : UnpackedFloat.pack .binary64 (.finite sign mantissa exponent hpos) =
      packComponents .binary64 sign (BitVec.ofNat 11 biased) (BitVec.ofNat 52 mantissa) := by
    have htoNat : (exponent + Format.binary64.exponentBias +
        Format.binary64.mantissaBitsWithoutImplicit).toNat = biased := by
      change (exponent + Format.binary64.exponentBias + 52).toNat = biased
      omega
    rw [UnpackedFloat.pack]
    simp only [htoNat, h.log2_eq, hbits]
    rw [if_neg (by omega), if_pos trivial]
  have hexponent : (BitVec.ofNat 11 biased).toNat = biased := by
    rw [BitVec.toNat_ofNat, Nat.mod_eq_of_lt (by omega)]
  have hspecial : BitVec.ofNat 11 biased ≠ -1#11 := by
    intro heq
    rw [heq] at hexponent
    exact absurd hexponent (Nat.ne_of_gt hsmall)
  have hzero : BitVec.ofNat 11 biased ≠ 0#11 := by
    intro heq
    rw [heq] at hexponent
    have : biased = 0 := hexponent.symm
    have := h.least
    omega
  have hmantissa : (1#1 ++ BitVec.ofNat 52 mantissa).toNat = mantissa := by
    have := h.lower
    have := h.upper
    rw [toNat_hiddenBit_append, BitVec.toNat_ofNat]
    change 2 ^ 52 + mantissa % 2 ^ 52 = mantissa
    omega
  change UnpackedFloat.unpack .binary64 (UnpackedFloat.pack .binary64 _) = _
  rw [hpacked, UnpackedFloat.unpack]
  simp only [unpackMantissa_packComponents, unpackExponent_packComponents, hspecial, hzero,
    unpackSign_packComponents, Sign.ofBitVec_toBitVec, hmantissa, if_false, hexponent]
  congr 1
  change (biased : Int) - (Format.binary64.exponentBias + 52) = exponent
  omega

end Normal

/-- Moved out as many places as it is moved in, a mantissa is what it was. -/
theorem repeat_shiftRightOne (mantissa places : Nat) :
    Nat.repeat ExtendedMantissa.shiftRightOne places ⟨mantissa * 2 ^ places, false, false⟩ =
      ⟨mantissa, false, false⟩ := by
  induction places generalizing mantissa with
  | zero => simp [Nat.repeat]
  | succ places ih =>
    rw [Nat.repeat, Nat.pow_succ', ← Nat.mul_assoc, ih (mantissa * 2)]
    simp [ExtendedMantissa.shiftRightOne]

namespace Normal

variable {mantissa : Nat} {exponent : Int} (h : Normal mantissa exponent)

include h

theorem log2_shifted (places : Nat) : (mantissa * 2 ^ places).log2 = 52 + places := by
  have hpos : 0 < mantissa := Nat.lt_of_lt_of_le (Nat.two_pow_pos 52) h.lower
  refine (Nat.log2_eq_iff (Nat.mul_pos hpos (Nat.two_pow_pos places)).ne').2 ⟨?_, ?_⟩
  · rw [Nat.pow_add]
    exact Nat.mul_le_mul_right _ h.lower
  · rw [Nat.add_right_comm, Nat.pow_add]
    exact Nat.mul_lt_mul_of_pos_right h.upper (Nat.two_pow_pos places)

theorem shiftToTargetExponent (places : Nat) :
    UnpackedFloat.shiftToTargetExponent .binary64 (mantissa * 2 ^ places) (exponent - places)
      .exact = (⟨mantissa, false, false⟩, exponent) := by
  have hleast : Format.binary64.minExponent = minExponent := rfl
  have hbits : (Format.binary64.mantissaBits : Int) = 53 := rfl
  have htarget : Format.binary64.targetExponent
      (totalExponent (mantissa * 2 ^ places) (exponent - places)) = exponent := by
    rw [Format.targetExponent, totalExponent, h.log2_shifted, hleast, hbits]
    have := h.least
    omega
  have hplaces : (exponent - (exponent - places)).toNat = places := by omega
  rw [UnpackedFloat.shiftToTargetExponent, htarget, shiftToExponent, hplaces]
  refine Prod.ext (repeat_shiftRightOne mantissa places) ?_
  exact Int.sub_add_cancel exponent places

/-- Nothing is rounded in a mantissa that has only zeros in the places that are left out. -/
theorem roundWithAccuracy (sign : Sign) (hpos : 0 < mantissa) (places : Nat) :
    UnpackedFloat.roundWithAccuracy .binary64 sign (mantissa * 2 ^ places) (exponent - places)
      .exact = .finite sign mantissa exponent hpos := by
  have hagain := h.shiftToTargetExponent 0
  rw [Nat.pow_zero, Nat.mul_one, Int.natCast_zero, Int.sub_zero] at hagain
  have hrounded : ExtendedMantissa.roundedMantissa ⟨mantissa, false, false⟩ = mantissa := rfl
  rw [UnpackedFloat.roundWithAccuracy, h.shiftToTargetExponent places]
  simp only [hrounded, hagain]
  exact dif_neg hpos.ne'

end Normal

/-- How many places a whole number is moved to become a mantissa. -/
def spare (n : Nat) : Nat :=
  52 - n.log2

theorem normal_of_nat {n : Nat} (hpos : 0 < n) (hlt : n < 2 ^ 53) :
    Normal (n * 2 ^ spare n) (-(spare n : Int)) := by
  have hlog : n.log2 < 53 := (Nat.log2_lt hpos.ne').2 hlt
  refine ⟨?_, ?_, ?_, ?_⟩
  · calc 2 ^ 52 = 2 ^ n.log2 * 2 ^ spare n := by rw [← Nat.pow_add, spare]; congr 1; omega
      _ ≤ n * 2 ^ spare n := Nat.mul_le_mul_right _ (Nat.log2_self_le hpos.ne')
  · calc n * 2 ^ spare n < 2 ^ (n.log2 + 1) * 2 ^ spare n :=
        Nat.mul_lt_mul_of_pos_right Nat.lt_log2_self (Nat.two_pow_pos _)
      _ = 2 ^ 53 := by rw [← Nat.pow_add, spare]; congr 1; omega
  · rw [spare, minExponent]
    omega
  · omega

/-- A whole number, taken apart. -/
def unpackedOfNat (sign : Sign) (n : Nat) (hpos : 0 < n) : UnpackedFloat :=
  .finite sign (n * 2 ^ spare n) (-(spare n : Int)) (Nat.mul_pos hpos (Nat.two_pow_pos _))

theorem unpack_pack_unpackedOfNat (sign : Sign) {n : Nat} (hpos : 0 < n) (hlt : n < 2 ^ 53) :
    (Float.Model.pack (unpackedOfNat sign n hpos)).unpack = unpackedOfNat sign n hpos :=
  (normal_of_nat hpos hlt).unpack_pack sign _

theorem ofNat_eq {n : Nat} (hpos : 0 < n) (hlt : n < 2 ^ 53) :
    UnpackedFloat.ofNat .binary64 n = unpackedOfNat .positive n hpos := by
  have hnormal := normal_of_nat hpos hlt
  have hlog : n.log2 < 53 := (Nat.log2_lt hpos.ne').2 hlt
  have hbits : (Format.binary64.mantissaBits : Int) = 53 := rfl
  have hleast : Format.binary64.minExponent = -1074 := rfl
  have htarget : Format.binary64.targetExponent (totalExponent n 0) = -(spare n : Int) := by
    rw [Format.targetExponent, totalExponent, hbits, hleast, spare]
    omega
  have hcompare : compare (n : Int) 0 = .gt := by
    rw [Int.compare_eq_gt]
    omega
  have hplaces : (0 - -(spare n : Int)).toNat = spare n := by omega
  rw [UnpackedFloat.ofNat, UnpackedFloat.ofInt, UnpackedFloat.normalize, hcompare]
  change UnpackedFloat.round .binary64 .positive n 0 = _
  rw [UnpackedFloat.round, htarget]
  simp only [decreaseExponent, hplaces, Nat.shiftLeft_eq]
  have hround := hnormal.roundWithAccuracy .positive
    (Nat.mul_pos hpos (Nat.two_pow_pos _)) 0
  simpa [unpackedOfNat] using hround

/-- To multiply by one changes nothing. -/
theorem mul_one {n : Nat} (hpos : 0 < n) (hlt : n < 2 ^ 53) :
    UnpackedFloat.mul .binary64 (unpackedOfNat .positive n hpos)
      (.finite .positive (2 ^ 52) (-52) (Nat.two_pow_pos 52)) = unpackedOfNat .positive n hpos :=
  (normal_of_nat hpos hlt).roundWithAccuracy .positive _ 52

theorem unpack_ofNat {n : Nat} (hpos : 0 < n) (hlt : n < 2 ^ 53) :
    (Float.ofNat n).toModel.unpack = unpackedOfNat .positive n hpos := by
  have hone : Float.exactlyRepresentablePowersOfTen[0].toModel.unpack =
      .finite .positive (2 ^ 52) (-52) (Nat.two_pow_pos 52) := by
    rfl
  have hword : n.toUInt64.toNat = n := Nat.mod_eq_of_lt (Nat.lt_trans hlt (by decide))
  have hconverted : n.toUInt64.toFloat.toModel.unpack = unpackedOfNat .positive n hpos := by
    change (Float.Model.pack (UnpackedFloat.ofNat .binary64 n.toUInt64.toNat)).unpack = _
    rw [hword, ofNat_eq hpos hlt, unpack_pack_unpackedOfNat .positive hpos hlt]
  have hproduct : Float.ofNat n = n.toUInt64.toFloat * Float.exactlyRepresentablePowersOfTen[0] :=
    dif_pos (c := n < 2 ^ 53 ∧ 0 ≤ 22) ⟨hlt, Nat.zero_le _⟩
  rw [hproduct]
  change (Float.Model.pack (UnpackedFloat.mul .binary64 n.toUInt64.toFloat.toModel.unpack
    Float.exactlyRepresentablePowersOfTen[0].toModel.unpack)).unpack = _
  rw [hone, hconverted, mul_one hpos hlt, unpack_pack_unpackedOfNat .positive hpos hlt]

/-- Moved back, the mantissa is the whole number again. -/
theorem toInt?_unpackedOfNat (sign : Sign) {n : Nat} (hpos : 0 < n) :
    (ofUnpacked (unpackedOfNat sign n hpos)).toInt? = some (sign.apply n) := by
  have hsign : (if (sign == Sign.negative) = true then -(n : Int) else n) = sign.apply n := by
    cases sign <;> rfl
  rw [unpackedOfNat, ofUnpacked, toInt?]
  obtain hspare | hspare := Nat.eq_zero_or_pos (spare n)
  · simp only [hspare, Nat.pow_eq, Int.natCast_zero, Int.neg_zero, Int.toNat_zero, Nat.pow_zero,
      Nat.mul_one]
    exact congrArg some hsign
  · have hnegative : ¬0 ≤ -(spare n : Int) := by omega
    have hmod : n * 2 ^ spare n % 2 ^ spare n = 0 := Nat.mul_mod_left _ _
    have hdiv : n * 2 ^ spare n / 2 ^ spare n = n := Nat.mul_div_cancel _ (Nat.two_pow_pos _)
    simp only [if_neg hnegative, Int.neg_neg, Int.toNat_natCast, Nat.pow_eq, hmod, if_true, hdiv]
    exact congrArg some hsign

/-- An index can be handed on as a number and read back. Up to the greatest exact integer, an
    integer has a mantissa of its own, so nothing is lost in between. -/
theorem toInt?_ofInt {i : Int} (hi : i.natAbs ≤ Number.maxExactInt) :
    (ofFloat (Float.ofInt i)).toInt? = some i := by
  obtain hlt | hgreatest := Nat.lt_or_eq_of_le hi
  · cases i with
    | ofNat n =>
      obtain rfl | hpos := Nat.eq_zero_or_pos n
      · decide +kernel
      · rw [ofFloat_eq]
        change (ofUnpacked (Float.ofNat n).toModel.unpack).toInt? = _
        rw [unpack_ofNat hpos hlt, toInt?_unpackedOfNat]
        rfl
    | negSucc n =>
      have hlt : n + 1 < 2 ^ 53 := hlt
      rw [ofFloat_eq]
      change (ofUnpacked (Float.Model.pack
        (Float.ofNat (n + 1)).toModel.unpack.neg).unpack).toInt? = _
      rw [unpack_ofNat n.succ_pos hlt]
      change (ofUnpacked (Float.Model.pack (unpackedOfNat .negative (n + 1) n.succ_pos)).unpack
        ).toInt? = _
      rw [unpack_pack_unpackedOfNat .negative n.succ_pos hlt, toInt?_unpackedOfNat]
      rfl
  · obtain rfl | rfl := Int.natAbs_eq_iff.1 hgreatest <;> decide +kernel

end Binary64

namespace Number

theorem toIndex?_ofIndex {i : Int64} (hi : i.toInt.natAbs ≤ maxExactInt) :
    toIndex? (ofIndex i) = some i := by
  rw [toIndex?, ofIndex, Binary64.toInt?_ofInt hi]
  simp [hi]

end Number

end NetDesc
